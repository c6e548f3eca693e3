import BootableKernel.Memory.Reentry
import Mathlib.Data.Set.Finite.Basic
import Mathlib.Logic.Relation

/-!
# Runs of the memory manager

A run starts from the state the bootstrap leaves and makes calls of `vmm_mmap`,
`vmm_free_pages` and `set_page_permission`. `Ledger` is what every run keeps: the free
blocks form a chain, and together with the outstanding ranges they cover every page of
the heap exactly once. It holds for requests of any size, empty ones included, and
however `kmalloc` is served.

Under the usual discipline, where requests are not empty and `kmalloc` does not
re-enter the allocator, the list is moreover coalesced and no call fails.
-/

namespace BootableKernel

open LinkedList

namespace Vmm
variable {P : Platform}

/-! ## Bootstrap -/

/-- `σ₀` is the state in which the first call of `vmm_mmap` has set up the blockchain,
for which `kmalloc` took `base` pages. -/
def Bootstrapped (P : Platform) (paging : Paging) (σ₀ : Vmm) : Prop :=
  ∃ base nested node, 0 < base ∧ base < maxHeapSize ∧ node ≠ 0 ∧
    (initial paging).allocateBlockchain ((Supply.grow base nested node).kmalloc P) = .ok σ₀

theorem mapFlags_true : mapFlags true = directoryDefaults := by decide

/-- What the bootstrap leaves: one block, after the pages `kmalloc` took. -/
theorem allocateBlockchain_initial {paging : Paging} {base node : ℕ} {nested : Supply}
    (hnode : node ≠ 0) :
    (initial paging).allocateBlockchain ((Supply.grow base nested node).kmalloc P) =
      .ok { paging := paging.ensurePagesMapped P (mapFlags true) base 0 heapStart
            nodes := AList.insert node
              ⟨⟨heapStart + base * pageSize, maxHeapSize - base⟩, 0, 0⟩ ∅
            blockchain := node
            firstAlloc := false
            allocatingBase := false
            pagesAllocatedForBlockchain := base
            calls := [.mapped heapStart base 0 true] } := by
  have hstart : heapStart ≠ 0 := by decide
  simp [allocateBlockchain, Supply.kmalloc, vmmMmap, initial, mapBase, create, hnode, hstart,
    mapFlags_true, bind, Except.bind]

/-- The first call of `vmm_mmap` sets up the blockchain and then goes on as any other. -/
theorem vmmMmap_initial {paging : Paging} {kmalloc : KMalloc} {σ₀ : Vmm}
    (h : (initial paging).allocateBlockchain kmalloc = .ok σ₀) (hb : σ₀.blockchain ≠ 0)
    (physical pages : ℕ) (isKernel : Bool) :
    (initial paging).vmmMmap P kmalloc physical pages isKernel =
      σ₀.vmmMmap P kmalloc physical pages isKernel := by
  rw [vmmMmap, vmmMmap, if_neg hb]
  simp only [show (initial paging).blockchain = 0 from rfl,
    show (initial paging).firstAlloc = true from rfl,
    show (initial paging).allocatingBase = false from rfl, if_true, Bool.false_eq_true, if_false, h,
    bind, Except.bind]

/-! ## Requests -/

/-- A call from outside, and what serves its `kmalloc`. -/
inductive Request
  | mmap (physical pages : ℕ) (isKernel : Bool) (supply : Supply)
  | free (start pages : ℕ) (supply : Supply)
  | setPermission (addr : ℕ) (isOs isWritable isExecutable : Bool)

/-- Carry out a request. -/
def Request.perform (P : Platform) (σ : Vmm) : Request → Except Fault Vmm
  | .mmap physical pages isKernel supply => do
      let r ← σ.vmmMmap P (supply.kmalloc P) physical pages isKernel
      .ok r.2
  | .free start pages supply => σ.vmmFreePages (supply.kmalloc P) start pages
  | .setPermission addr isOs isWritable isExecutable =>
      .ok { σ with paging := σ.paging.setPagePermission P addr isOs isWritable isExecutable }

theorem Request.perform_mmap_iff {P : Platform} {σ σ' : Vmm} {physical pages : ℕ} {isKernel : Bool}
    {supply : Supply} :
    (Request.mmap physical pages isKernel supply).perform P σ = .ok σ' ↔
      ∃ s, σ.vmmMmap P (supply.kmalloc P) physical pages isKernel = .ok (s, σ') := by
  simp only [perform, bind, Except.bind]
  constructor
  · intro hok
    split at hok
    · exact absurd hok (by simp)
    · rename_i r hr
      rw [← Except.ok.inj hok]
      exact ⟨r.1, hr⟩
  · rintro ⟨s, hs⟩
    rw [hs]

/-- Only outstanding ranges are freed, and `kmalloc` hands out records not in use. -/
def Request.Legal (σ : Vmm) : Request → Prop
  | .mmap _ _ _ _ => True
  | .free start pages supply => (⟨start, pages⟩ : Span) ∈ outstanding σ.calls ∧ supply.Fresh σ
  | .setPermission _ _ _ _ => True

/-- One legal request of a kind that `allowed` admits. A request that faults has no
successor. -/
def Step (P : Platform) (allowed : Vmm → Request → Prop) (σ σ' : Vmm) : Prop :=
  ∃ q : Request, allowed σ q ∧ q.Legal σ ∧ q.perform P σ = .ok σ'

/-- Requests that are admitted more generally. -/
theorem Step.mono {P : Platform} {a b : Vmm → Request → Prop} (hab : ∀ σ q, a σ q → b σ q)
    {σ σ' : Vmm} (h : Step P a σ σ') : Step P b σ σ' := by
  obtain ⟨q, hq, hlegal, hok⟩ := h
  exact ⟨q, hab σ q hq, hlegal, hok⟩

/-- Any number of requests. -/
abbrev Run (P : Platform) (allowed : Vmm → Request → Prop) : Vmm → Vmm → Prop :=
  Relation.ReflTransGen (Step P allowed)

/-! ## The ledger -/

/-- The heap, as a range of pages. -/
def heapSpan : Span := ⟨heapStart, maxHeapSize⟩

/-- The free list of `σ` is the chain `xs`, and its blocks and the outstanding ranges
cover the pages of the heap exactly once. -/
structure Ledger (σ : Vmm) (xs : List (ℕ × Span)) : Prop where
  chain : Chain σ.nodes σ.blockchain xs
  tiles : Tiles pageSize (blocks xs ++ outstanding σ.calls) heapSpan
  inHeap : ∀ b ∈ blocks xs ++ outstanding σ.calls, heapStart ≤ b.start
  booted : σ.firstAlloc = false

theorem Ledger.pos {σ : Vmm} {xs : List (ℕ × Span)} (h : Ledger σ xs) :
    ∀ x ∈ xs, 0 < x.2.start := fun x hx =>
  lt_of_lt_of_le (by decide) (h.inHeap x.2 (List.mem_append_left _ (List.mem_map_of_mem hx)))

/-- Pages of a block or of an outstanding range are pages of the heap. -/
theorem Ledger.heap_of_covers {σ : Vmm} {xs : List (ℕ × Span)} (h : Ledger σ xs) {b : Span}
    (hb : b ∈ blocks xs ++ outstanding σ.calls) {a : ℕ} (ha : b.covers pageSize a = true) :
    heapSpan.covers pageSize a = true := h.tiles.covers_of_mem hb ha

theorem ledger_bootstrapped {paging : Paging} {σ₀ : Vmm} (h : Bootstrapped P paging σ₀) :
    ∃ node base, 0 < base ∧ base < maxHeapSize ∧
      Ledger σ₀ [(node, ⟨heapStart + base * pageSize, maxHeapSize - base⟩)] ∧
      σ₀.calls = [.mapped heapStart base 0 true] ∧
      σ₀.paging = paging.ensurePagesMapped P (mapFlags true) base 0 heapStart := by
  obtain ⟨base, nested, node, hpos, hlt, hnode, h⟩ := h
  rw [allocateBlockchain_initial hnode, Except.ok.injEq] at h
  subst h
  refine ⟨node, base, hpos, hlt, ⟨⟨⟨hnode, ?_, trivial⟩, by simp, rfl⟩, ?_, ?_, rfl⟩, rfl, rfl⟩
  · exact AList.lookup_insert _
  · have hself := Tiles.self pageSize heapSpan
    have hsplit : ∀ a, ([⟨heapStart + base * pageSize, maxHeapSize - base⟩, ⟨heapStart, base⟩] :
        List Span).countP (Span.covers pageSize a) = [heapSpan].countP (Span.covers pageSize a) := by
      intro a
      rw [(List.Perm.swap ..).countP_eq, ← Tiles.countP_split pageSize_pos,
        Nat.add_sub_cancel' (by omega)]
      rfl
    exact (Tiles.congr hsplit).mpr hself
  · intro b hb
    simp only [blocks, outstanding, List.map_cons, List.map_nil, List.cons_append, List.nil_append,
      List.mem_cons, List.not_mem_nil, or_false] at hb
    rcases hb with rfl | rfl
    · exact Nat.le_add_right _ _
    · exact le_refl _

/-- What a call of `vmm_mmap` does to the books: nothing, or `pages` pages move from the
first block with room to the outstanding ranges. -/
theorem Ledger.mmap {σ σ' : Vmm} {xs : List (ℕ × Span)} (h : Ledger σ xs) {kmalloc : KMalloc}
    {physical pages p : ℕ} {isKernel : Bool}
    (hm : σ.vmmMmap P kmalloc physical pages isKernel = .ok (p, σ')) :
    (p = 0 ∧ σ' = σ ∧ FreeList.take pageSize pages (blocks xs) = none) ∨
    ∃ ys, Ledger σ' ys ∧ FreeList.take pageSize pages (blocks xs) = some (p, blocks ys) ∧
      heapStart ≤ p ∧ σ'.calls = .mapped p pages physical isKernel :: σ.calls ∧
      σ'.paging = σ.paging.ensurePagesMapped P (mapFlags isKernel) pages physical p := by
  rcases vmmMmap_spec (P := P) kmalloc h.chain h.booted physical pages isKernel with
    ⟨hsmall, e⟩ | ⟨l, x, r, rfl, hl, hx, nodes, head, e, hc, -⟩
  · rw [e, Except.ok.injEq, Prod.mk.injEq] at hm
    refine .inl ⟨hm.1.symm, hm.2.symm, FreeList.take_eq_none.mpr fun b hb => ?_⟩
    obtain ⟨z, hz, rfl⟩ := List.mem_map.mp hb
    exact hsmall z hz
  · rw [e, Except.ok.injEq, Prod.mk.injEq] at hm
    obtain ⟨rfl, rfl⟩ := hm
    have htake := take_blocks (r := r) hl hx
    have hstart : heapStart ≤ x.2.start := h.inHeap x.2 (by simp)
    refine .inr ⟨_, ⟨hc, ?_, ?_, h.booted⟩, htake, hstart, rfl, rfl⟩
    · have hcount : ∀ a, (blocks (l ++ restNode x pages ++ r) ++
          outstanding (.mapped x.2.start pages physical isKernel :: σ.calls)).countP
            (Span.covers pageSize a) =
          (blocks (l ++ x :: r) ++ outstanding σ.calls).countP (Span.covers pageSize a) := by
        intro a
        have := FreeList.countP_take pageSize_pos htake a
        rw [List.countP_append, List.countP_append, ← this]
        simp only [outstanding, List.countP_cons]
        omega
      exact (Tiles.congr hcount).mpr h.tiles
    · intro b hb
      simp only [outstanding, List.mem_append, List.mem_cons] at hb
      rcases hb with hb | rfl | hb
      · obtain ⟨c, hc, -, hle⟩ := mem_blocks_cut hx hb
        exact le_trans (h.inHeap c (List.mem_append_left _ hc)) hle
      · exact hstart
      · exact h.inHeap b (List.mem_append_right _ hb)

/-- `vmm_mmap` does not fault. -/
theorem Ledger.mmap_ok {σ : Vmm} {xs : List (ℕ × Span)} (h : Ledger σ xs) (kmalloc : KMalloc)
    (physical pages : ℕ) (isKernel : Bool) :
    ∃ r, σ.vmmMmap P kmalloc physical pages isKernel = .ok r := by
  rcases vmmMmap_spec (P := P) kmalloc h.chain h.booted physical pages isKernel with
    ⟨-, e⟩ | ⟨l, x, r, -, -, -, nodes, head, e, -⟩
  · exact ⟨_, e⟩
  · exact ⟨_, e⟩

/-- A request that some block has room for. -/
theorem Ledger.mmap_some {σ : Vmm} {xs : List (ℕ × Span)} (h : Ledger σ xs) (kmalloc : KMalloc)
    (physical : ℕ) {pages s : ℕ} {l : List Span} (isKernel : Bool)
    (ht : FreeList.take pageSize pages (blocks xs) = some (s, l)) :
    ∃ σ' ys, σ.vmmMmap P kmalloc physical pages isKernel = .ok (s, σ') ∧ Ledger σ' ys ∧
      blocks ys = l ∧ heapStart ≤ s ∧ σ'.calls = .mapped s pages physical isKernel :: σ.calls ∧
      σ'.paging = σ.paging.ensurePagesMapped P (mapFlags isKernel) pages physical s := by
  obtain ⟨⟨p, σ'⟩, hr⟩ := h.mmap_ok (P := P) kmalloc physical pages isKernel
  rcases h.mmap hr with ⟨-, -, hnone⟩ | ⟨ys, hl, hsome, hs, hcalls, hpaging⟩
  · rw [ht] at hnone
    exact absurd hnone (by simp)
  · rw [ht, Option.some.injEq, Prod.mk.injEq] at hsome
    obtain ⟨rfl, rfl⟩ := hsome
    exact ⟨σ', ys, hr, hl, rfl, hs, hcalls, hpaging⟩

/-- There is always an address that is not in use. -/
theorem exists_fresh (σ : Vmm) : ∃ node, (Supply.atOnce node).Fresh σ := by
  obtain ⟨a, ha⟩ := Infinite.exists_notMem_finset (insert 0 σ.nodes.keys.toFinset)
  rw [Finset.mem_insert, not_or, List.mem_toFinset] at ha
  exact ⟨a, ha.1, fun hm => ha.2 (AList.mem_keys.mp hm)⟩

@[simp] theorem outstanding_freed (x : Span) (cs : List Call) :
    outstanding (.freed x.start x.size :: cs) = (outstanding cs).erase x := rfl

/-- Moving a span from the outstanding ranges to the free ones. -/
theorem countP_erase_outstanding {o : List Span} {x : Span} (hx : x ∈ o) (a : ℕ) :
    (o.erase x).countP (Span.covers pageSize a) + (if x.covers pageSize a then 1 else 0) =
      o.countP (Span.covers pageSize a) := by
  rw [(List.perm_cons_erase hx).countP_eq, List.countP_cons]

theorem Ledger.released {σ σ' : Vmm} {xs ys : List (ℕ × Span)} {x : Span} (h : Ledger σ xs)
    (hx : x ∈ outstanding σ.calls) (hr : Released σ σ' xs x ys) : Ledger σ' ys := by
  refine ⟨hr.chain, ?_, ?_, hr.first_eq.trans h.booted⟩
  · refine (Tiles.congr fun a => ?_).mpr h.tiles
    have := countP_erase_outstanding hx a
    rw [hr.blocks_eq, hr.calls_eq, List.countP_append, List.countP_append,
      FreeList.countP_put pageSize_pos, List.countP_cons, ← this, outstanding_freed]
    omega
  · intro b hb
    rw [hr.blocks_eq, hr.calls_eq, outstanding] at hb
    rcases List.mem_append.mp hb with hb | hb
    · obtain ⟨c, hc, he⟩ := FreeList.start_mem_put hb
      rw [he]
      rcases List.mem_cons.mp hc with rfl | hc
      · exact h.inHeap c (List.mem_append_right _ hx)
      · exact h.inHeap c (List.mem_append_left _ hc)
    · exact h.inHeap b (List.mem_append_right _ (List.mem_of_mem_erase hb))

theorem Ledger.grown {σ σ' : Vmm} {xs ys : List (ℕ × Span)} {x y : Span} {k : ℕ} {l r : List Span}
    (h : Ledger σ xs) (hx : x ∈ outstanding σ.calls) (hr : ReleasedGrown P σ σ' xs x k y l r)
    (hc : Chain σ'.nodes σ'.blockchain ys) (hys : blocks ys = l ++ x :: r) : Ledger σ' ys := by
  obtain ⟨b, hbx, -, hyb, hmem⟩ := hr.cut
  have hb := h.inHeap b (List.mem_append_left _ hbx)
  have hx' : x ∈ (⟨y.start, k⟩ : Span) :: outstanding σ.calls := List.mem_cons_of_mem _ hx
  refine ⟨hc, ?_, ?_, hr.first_eq.trans h.booted⟩
  · refine (Tiles.congr fun a => ?_).mpr h.tiles
    have h₁ := countP_erase_outstanding hx' a
    have h₂ := FreeList.countP_take pageSize_pos hr.taken a
    simp only [hys, hr.calls_eq, outstanding_freed, outstanding, List.countP_append,
      List.countP_cons] at h₁ h₂ ⊢
    omega
  · intro c hc
    rw [hys, hr.calls_eq, outstanding, outstanding] at hc
    simp only [List.mem_append, List.mem_cons] at hc hmem
    have hrest : c ∈ l ∨ c ∈ r → heapStart ≤ c.start := by
      intro hlr
      rcases hmem c hlr with hc | hc
      · exact h.inHeap c (List.mem_append_left _ hc)
      · exact le_trans hb hc
    rcases hc with (hc | rfl | hc) | hc
    · exact hrest (.inl hc)
    · exact h.inHeap c (List.mem_append_right _ hx)
    · exact hrest (.inr hc)
    · rcases List.mem_cons.mp (List.mem_of_mem_erase hc) with rfl | hc
      · rw [hyb]
        exact hb
      · exact h.inHeap c (List.mem_append_right _ hc)

/-- What a release does to the books and to the page tables, which only a nested call
touches. -/
theorem Ledger.free {σ σ' : Vmm} {xs : List (ℕ × Span)} (h : Ledger σ xs) {supply : Supply}
    (hf : supply.Fresh σ) {x : Span} (hx : x ∈ outstanding σ.calls)
    (hok : σ.vmmFreePages (supply.kmalloc P) x.start x.size = .ok σ') :
    ∃ ys, Ledger σ' ys ∧
      ((σ'.paging = σ.paging ∧ σ'.calls = .freed x.start x.size :: σ.calls) ∨
        ∃ k s l, FreeList.take pageSize k (blocks xs) = some (s, l) ∧
          σ'.paging = σ.paging.ensurePagesMapped P (mapFlags true) k 0 s ∧
          σ'.calls = .freed x.start x.size :: .mapped s k 0 true :: σ.calls) := by
  rcases vmmFreePages_ok h.chain h.booted h.pos hf hok with
    ⟨ys, hr⟩ | ⟨k, y, l, r, -, -, hr⟩
  · exact ⟨ys, h.released hx hr, .inl ⟨hr.paging_eq, hr.calls_eq⟩⟩
  · obtain ⟨ys, hc, hys⟩ := hr.chain
    exact ⟨ys, h.grown hx hr hc hys, .inr ⟨k, y.start, l ++ r, hr.taken, hr.paging_eq, hr.calls_eq⟩⟩

/-- The ledger holds after every step. -/
theorem Ledger.step {allowed : Vmm → Request → Prop} {σ σ' : Vmm} {xs : List (ℕ × Span)}
    (h : Ledger σ xs) (hs : Step P allowed σ σ') : ∃ ys, Ledger σ' ys := by
  obtain ⟨q, -, hlegal, hok⟩ := hs
  cases q with
  | mmap physical pages isKernel supply =>
      obtain ⟨s, hs⟩ := Request.perform_mmap_iff.mp hok
      rcases h.mmap hs with ⟨-, he, -⟩ | ⟨ys, hys, -⟩
      · exact ⟨xs, he ▸ h⟩
      · exact ⟨ys, hys⟩
  | free start pages supply =>
      obtain ⟨ys, hys, -⟩ := h.free (x := ⟨start, pages⟩) hlegal.2 hlegal.1 hok
      exact ⟨ys, hys⟩
  | setPermission addr isOs isWritable isExecutable =>
      obtain rfl := Except.ok.inj hok
      exact ⟨xs, h.chain, h.tiles, h.inHeap, h.booted⟩

/-- **The ledger holds along every run.** -/
theorem ledger_of_run {paging : Paging} {allowed : Vmm → Request → Prop} {σ₀ σ : Vmm}
    (h₀ : Bootstrapped P paging σ₀) (hrun : Run P allowed σ₀ σ) : ∃ xs, Ledger σ xs := by
  induction hrun with
  | refl =>
      obtain ⟨node, base, -, -, h, -⟩ := ledger_bootstrapped h₀
      exact ⟨_, h⟩
  | tail _ hs ih =>
      obtain ⟨xs, h⟩ := ih
      exact h.step hs

/-! ## Plain runs -/

/-- Requests for at least one page, with `kmalloc` an allocator that succeeds without
calling back. -/
def Plain (_ : Vmm) : Request → Prop
  | .mmap _ pages _ _ => 1 ≤ pages
  | .free _ _ supply => supply.grows = none
  | .setPermission _ _ _ _ => False

/-- The ledger of a plain run: in addition, the free list is coalesced and no range is
empty. -/
structure Tidy (σ : Vmm) (xs : List (ℕ × Span)) : Prop extends Ledger σ xs where
  coalesced : FreeList.Coalesced pageSize (blocks xs)
  nonempty : ∀ r ∈ outstanding σ.calls, 0 < r.size

theorem Tidy.listed {σ : Vmm} {xs : List (ℕ × Span)} (h : Tidy σ xs) : Listed σ xs :=
  ⟨h.chain, h.coalesced, fun b hb => h.inHeap b (List.mem_append_left _ hb)⟩

/-- An outstanding range overlaps no free block. -/
theorem Tidy.apart {σ : Vmm} {xs : List (ℕ × Span)} (h : Tidy σ xs) {x : Span}
    (hx : x ∈ outstanding σ.calls) : ∀ b ∈ blocks xs, FreeList.Apart pageSize x b := by
  intro b hb
  exact h.tiles.apart_of_mem_append pageSize_pos hb hx (h.coalesced.nonempty b hb) (h.nonempty x hx)

theorem Tidy.step {σ σ' : Vmm} {xs : List (ℕ × Span)} (h : Tidy σ xs) (hs : Step P Plain σ σ') :
    ∃ ys, Tidy σ' ys := by
  obtain ⟨q, hplain, hlegal, hok⟩ := hs
  cases q with
  | mmap physical pages isKernel supply =>
      obtain ⟨s, hs⟩ := Request.perform_mmap_iff.mp hok
      rcases h.toLedger.mmap hs with ⟨-, he, -⟩ | ⟨ys, hys, htake, -, hcalls, -⟩
      · exact ⟨xs, he ▸ h⟩
      · refine ⟨ys, hys, h.coalesced.take htake, ?_⟩
        rw [hcalls]
        exact List.forall_mem_cons.mpr ⟨hplain, h.nonempty⟩
  | free start pages supply =>
      obtain ⟨hx, hf⟩ := hlegal
      have hheap := h.inHeap _ (List.mem_append_right _ hx)
      rcases vmmFreePages_ok (x := ⟨start, pages⟩) h.chain h.booted h.pos hf hok with
        ⟨ys, hr⟩ | ⟨k, y, l, r, hk, -⟩
      · refine ⟨ys, h.toLedger.released hx hr, ?_, ?_⟩
        · exact (hr.listed h.listed (h.nonempty _ hx) hheap (h.apart hx)).coalesced
        · rw [hr.calls_eq]
          exact fun b hb => h.nonempty b (List.mem_of_mem_erase hb)
      · rw [show supply.grows = none from hplain] at hk
        exact absurd hk (by simp)
  | setPermission addr isOs isWritable isExecutable => exact hplain.elim

theorem tidy_of_run {paging : Paging} {σ₀ σ : Vmm} (h₀ : Bootstrapped P paging σ₀)
    (hrun : Run P Plain σ₀ σ) : ∃ xs, Tidy σ xs := by
  induction hrun with
  | refl =>
      obtain ⟨node, base, hpos, hlt, h, hcalls, -⟩ := ledger_bootstrapped h₀
      refine ⟨_, h, ?_, ?_⟩
      · refine FreeList.coalesced_cons.mpr ⟨?_, by simp, FreeList.coalesced_nil⟩
        simp only
        omega
      · rw [hcalls]
        simpa [outstanding] using hpos
  | tail _ hs ih =>
      obtain ⟨xs, h⟩ := ih
      exact h.step hs

/-- How a request changes the outstanding ranges: one that was returned is added, and one that
was freed is taken out. -/
def Request.Recorded (P : Platform) (σ σ' : Vmm) : Request → Prop
  | .mmap physical pages isKernel supply =>
      ∃ s, σ.vmmMmap P (supply.kmalloc P) physical pages isKernel = .ok (s, σ') ∧
        outstanding σ'.calls =
          if s = 0 then outstanding σ.calls else ⟨s, pages⟩ :: outstanding σ.calls
  | .free start pages _ => outstanding σ'.calls = (outstanding σ.calls).erase ⟨start, pages⟩
  | .setPermission _ _ _ _ => outstanding σ'.calls = outstanding σ.calls

/-- No request of a plain run fails. -/
theorem Tidy.perform_ok {σ : Vmm} {xs : List (ℕ × Span)} (h : Tidy σ xs) {q : Request}
    (hplain : Plain σ q) (hlegal : q.Legal σ) :
    ∃ σ', q.perform P σ = .ok σ' ∧ q.Recorded P σ σ' := by
  cases q with
  | mmap physical pages isKernel supply =>
      obtain ⟨⟨s, σ'⟩, hr⟩ := h.toLedger.mmap_ok (P := P) (supply.kmalloc P) physical pages isKernel
      refine ⟨σ', Request.perform_mmap_iff.mpr ⟨s, hr⟩, s, hr, ?_⟩
      rcases h.toLedger.mmap hr with ⟨h0, rfl, -⟩ | ⟨ys, -, -, hs, hcalls, -⟩
      · rw [if_pos h0]
      · have hpos : 0 < heapStart := by decide
        rw [if_neg (by omega), hcalls, outstanding]
  | free start pages supply =>
      cases supply with
      | atOnce node =>
          obtain ⟨σ', ys, e, hr⟩ :=
            vmmFreePages_atOnce (P := P) h.chain hlegal.2 ⟨start, pages⟩
          refine ⟨σ', e, ?_⟩
          rw [Request.Recorded, hr.calls_eq, outstanding]
      | grow k nested node => simp [Plain, Supply.grows] at hplain
  | setPermission addr isOs isWritable isExecutable => exact hplain.elim

/-- **The free list through every plain run.** No request fails, and after every call
`blockchain` designates the first of a list of live blocks that are linked both ways,
non-empty, in increasing order and with a gap after each; these blocks and the ranges
outstanding, the bootstrap pages among them, cover every page of the heap exactly once. -/
theorem blockchain_partitions_heap {paging : Paging} {σ₀ σ : Vmm}
    (h₀ : Bootstrapped P paging σ₀) (hrun : Run P Plain σ₀ σ) :
    (∃ xs, Chain σ.nodes σ.blockchain xs ∧ FreeList.Coalesced pageSize (blocks xs) ∧
      Tiles pageSize (blocks xs ++ outstanding σ.calls) ⟨heapStart, maxHeapSize⟩) ∧
    ∀ q, Plain σ q → q.Legal σ → ∃ σ', q.perform P σ = .ok σ' ∧ q.Recorded P σ σ' := by
  obtain ⟨xs, h⟩ := tidy_of_run h₀ hrun
  exact ⟨⟨xs, h.chain, h.coalesced, h.tiles⟩, fun q hq hl => h.perform_ok hq hl⟩

/-- The bootstrap of the sample image, with 16 pages for `kmalloc`. -/
def sampleStart : Vmm where
  paging := Boot.sample.paging.ensurePagesMapped Boot.sample.platform (mapFlags true) 16 0 heapStart
  nodes := AList.insert 0x200040 ⟨⟨heapStart + 16 * pageSize, maxHeapSize - 16⟩, 0, 0⟩ ∅
  blockchain := 0x200040
  firstAlloc := false
  allocatingBase := false
  pagesAllocatedForBlockchain := 16
  calls := [.mapped heapStart 16 0 true]

theorem sampleStart_bootstrapped :
    Bootstrapped Boot.sample.platform Boot.sample.paging sampleStart :=
  ⟨16, .atOnce 0, 0x200040, by decide, by decide, by decide, allocateBlockchain_initial (by decide)⟩

theorem sampleStart_ledger : ∃ node, Ledger sampleStart
    [(node, ⟨heapStart + 16 * pageSize, maxHeapSize - 16⟩)] := by
  obtain ⟨node, base, -, -, h, hcalls, -⟩ := ledger_bootstrapped sampleStart_bootstrapped
  obtain rfl : base = 16 := by
    rw [show sampleStart.calls = [.mapped heapStart 16 0 true] from rfl] at hcalls
    simpa using hcalls.symm
  exact ⟨node, h⟩

/-- Any request for memory at the start of the sample runs, and is served right after the
bootstrap pages. -/
theorem sampleStart_mmap (allowed : Vmm → Request → Prop) (physical pages : ℕ) (isKernel : Bool)
    (hq : allowed sampleStart (.mmap physical pages isKernel (.atOnce 0)))
    (hn : pages ≤ maxHeapSize - 16) :
    ∃ σ ys, Run Boot.sample.platform allowed sampleStart σ ∧ Ledger σ ys ∧
      blocks ys = FreeList.rest pageSize ⟨heapStart + 16 * pageSize, maxHeapSize - 16⟩ pages ∧
      σ.calls = [.mapped (heapStart + 16 * pageSize) pages physical isKernel,
        .mapped heapStart 16 0 true] ∧
      σ.paging = sampleStart.paging.ensurePagesMapped Boot.sample.platform (mapFlags isKernel) pages
        physical (heapStart + 16 * pageSize) := by
  obtain ⟨node, h⟩ := sampleStart_ledger
  obtain ⟨σ, ys, hr, hl, hys, -, hcalls, hpaging⟩ := h.mmap_some (P := Boot.sample.platform)
    ((Supply.atOnce 0).kmalloc Boot.sample.platform) physical isKernel
    (show FreeList.take pageSize pages _ = some (heapStart + 16 * pageSize,
      FreeList.rest pageSize ⟨heapStart + 16 * pageSize, maxHeapSize - 16⟩ pages) by
        simp [FreeList.take, hn])
  refine ⟨σ, ys, .single ⟨.mmap physical pages isKernel (.atOnce 0), hq, trivial, ?_⟩, hl, hys,
    hcalls, hpaging⟩
  exact Request.perform_mmap_iff.mpr ⟨_, hr⟩

/-- Four pages taken from the sample. -/
theorem blockchain_partitions_heap_sample :
    ∃ σ, Run Boot.sample.platform Plain sampleStart σ ∧
      outstanding σ.calls = [⟨heapStart + 16 * pageSize, 4⟩, ⟨heapStart, 16⟩] ∧
      ∃ xs, Chain σ.nodes σ.blockchain xs ∧ FreeList.Coalesced pageSize (blocks xs) ∧
        Tiles pageSize (blocks xs ++ outstanding σ.calls) ⟨heapStart, maxHeapSize⟩ := by
  obtain ⟨σ, -, hrun, -, -, hcalls, -⟩ := sampleStart_mmap Plain 0 4 false
    (show 1 ≤ 4 by decide) (by decide)
  refine ⟨σ, hrun, by rw [hcalls]; rfl, ?_⟩
  exact (blockchain_partitions_heap sampleStart_bootstrapped hrun).1

end Vmm
end BootableKernel
