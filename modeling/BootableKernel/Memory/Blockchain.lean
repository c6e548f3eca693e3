import BootableKernel.Memory.VMM

/-!
# The blockchain as a free list

The pointer code of `vmm_mmap` and `vmm_free_pages` against the pure operations of
`FreeList`: on a heap that holds the chain `xs`, taking pages and returning a range
leave a chain whose blocks are those that `FreeList.take` and `FreeList.put` compute.
The specifications say which records the new chain consists of as well, which is what
a re-entrant call has to know.
-/

namespace BootableKernel

open LinkedList

namespace Vmm
variable {P : Platform}

/-- What the search-and-cut part of `vmm_mmap` leaves of a block. -/
def restNode (x : ℕ × Span) (n : ℕ) : List (ℕ × Span) :=
  if x.2.size = n then [] else [(x.1, ⟨x.2.start + n * pageSize, x.2.size - n⟩)]

@[simp] theorem map_restNode (x : ℕ × Span) (n : ℕ) :
    (restNode x n).map Prod.snd = FreeList.rest pageSize x.2 n := by
  rw [restNode, FreeList.rest]
  split <;> rfl

theorem passes_null (nodes : Heap Span) (test : Span → Bool) : passes nodes 0 test = .ok false :=
  rfl

theorem passes_eq {nodes : Heap Span} {p : ℕ} {n : Node Span} (hp : p ≠ 0)
    (hn : nodes.lookup p = some n) (test : Span → Bool) : passes nodes p test = .ok (test n.val) := by
  simp [passes, hp, load_eq_ok hp hn, bind, Except.bind]

/-- Deleting a block of the chain. -/
theorem deleteBlock_spec {σ : Vmm} {l r : List (ℕ × Span)} {x : ℕ × Span}
    (h : Chain σ.nodes σ.blockchain (l ++ x :: r)) :
    ∃ nodes head, σ.deleteBlock x.1 = .ok { σ with nodes := nodes, blockchain := head } ∧
      Chain nodes head (l ++ r) ∧ ∀ a, a ∈ nodes ↔ a ≠ x.1 ∧ a ∈ σ.nodes := by
  obtain ⟨hx0, hxl⟩ := h.lookup_mid
  obtain ⟨H₁, H₂, e₁, e₂, hc⟩ := h.unlink
  have hhead : (if x.1 = σ.blockchain then headAddr 0 r else σ.blockchain) =
      headAddr 0 (l ++ r) := by
    have heq := h.head_eq
    rcases l with _ | ⟨y, l⟩
    · simp [heq]
    · have hne : x.1 ≠ y.1 := by
        have hn := h.nodup
        simp only [List.cons_append, List.map_cons, List.nodup_cons, List.map_append,
          List.mem_append, List.mem_cons, not_or] at hn
        exact fun e => hn.1.2.1 e.symm
      simp [heq, hne]
  refine ⟨H₂.erase x.1, headAddr 0 (l ++ r), ?_, hc, fun a => ?_⟩
  · simp only [deleteBlock, load_eq_ok hx0 hxl, e₁, e₂, bind, Except.bind, hhead]
  · rw [AList.mem_erase, mem_of_setPrev e₂, mem_of_setNext e₁]

/-- Without a block of the requested size, `vmm_mmap` returns null and changes nothing. -/
theorem takePages_none {σ : Vmm} {xs : List (ℕ × Span)} (h : Chain σ.nodes σ.blockchain xs)
    {physical pages : ℕ} {isKernel : Bool} (hsmall : ∀ x ∈ xs, x.2.size < pages) :
    σ.takePages P physical pages isKernel = .ok (0, σ) := by
  have hdrop : xs.dropWhile (fun x => !decide (pages ≤ x.2.size)) = [] := by
    rw [List.dropWhile_eq_nil_iff]
    intro x hx
    simpa using hsmall x hx
  simp only [takePages, h.find_eq, hdrop, headAddr_nil, bind, Except.bind, if_true]

/-- **First fit.** The pages are cut off the first block with room for them. -/
theorem takePages_some {σ : Vmm} {l r : List (ℕ × Span)} {x : ℕ × Span}
    (h : Chain σ.nodes σ.blockchain (l ++ x :: r)) {physical pages : ℕ} {isKernel : Bool}
    (hsmall : ∀ y ∈ l, y.2.size < pages) (hx : pages ≤ x.2.size) :
    ∃ nodes head, σ.takePages P physical pages isKernel = .ok (x.2.start, { σ with
        paging := σ.paging.ensurePagesMapped P (mapFlags isKernel) pages physical x.2.start
        nodes := nodes
        blockchain := head
        calls := .mapped x.2.start pages physical isKernel :: σ.calls }) ∧
      Chain nodes head (l ++ restNode x pages ++ r) ∧
      ∀ a, a ∈ nodes ↔ a ∈ σ.nodes ∧ (x.2.size = pages → a ≠ x.1) := by
  obtain ⟨hx0, hxl⟩ := h.lookup_mid
  have hdrop : (l ++ x :: r).dropWhile (fun x => !decide (pages ≤ x.2.size)) = x :: r := by
    rw [List.dropWhile_append_of_pos (fun y hy => by simpa using hsmall y hy),
      List.dropWhile_cons_of_neg (by simpa using hx)]
  obtain ⟨H₁, e₁, hc₁, hl₁⟩ := h.modify_val (shrink pages)
    ⟨x.2.start + pages * pageSize, x.2.size - pages⟩ rfl
  have hkeys : ∀ a, a ∈ H₁ ↔ a ∈ σ.nodes := fun a => mem_of_modify e₁
  simp only [takePages, h.find_eq, hdrop, headAddr_cons, if_neg hx0, load_eq_ok hx0 hxl, e₁,
    passes_eq hx0 hl₁, bind, Except.bind]
  by_cases hz : x.2.size = pages
  · -- The block is used up.
    obtain ⟨H₂, head, e₂, hc₂, hm₂⟩ := deleteBlock_spec
      (σ := { σ with
        paging := σ.paging.ensurePagesMapped P (mapFlags isKernel) pages physical x.2.start
        nodes := H₁ }) (x := (x.1, ⟨x.2.start + pages * pageSize, x.2.size - pages⟩)) hc₁
    have hdec : decide (x.2.size - pages = 0) = true := by simp; omega
    refine ⟨H₂, head, ?_, ?_, fun a => ?_⟩
    · simp only [hdec, if_true, e₂]
    · simpa [restNode, hz] using hc₂
    · rw [hm₂ a, hkeys a]
      exact ⟨fun ⟨ha, hb⟩ => ⟨hb, fun _ => ha⟩, fun ⟨hb, ha⟩ => ⟨ha hz, hb⟩⟩
  · have hdec : decide (x.2.size - pages = 0) = false := by simp; omega
    refine ⟨H₁, σ.blockchain, ?_, ?_, fun a => ?_⟩
    · simp only [hdec, Bool.false_eq_true, if_false]
    · simpa [restNode, hz] using hc₁
    · rw [hkeys a]
      exact ⟨fun hb => ⟨hb, fun e => absurd e hz⟩, And.left⟩

/-! ## Returning a range -/

/-- Whether the range from `start` on touches the block before it or the one after it. -/
def touches (start pages : ℕ) (l r : List (ℕ × Span)) : Bool :=
  l.getLast?.any (fun b => start = b.2.stop pageSize) ||
    r.head?.any (fun c => start + pages * pageSize = c.2.start)

/-- The neighbours of a range are the blocks at its place in the list. -/
theorem neighbours_spec {σ : Vmm} {xs : List (ℕ × Span)} (h : Chain σ.nodes σ.blockchain xs)
    (hne : xs ≠ []) (start : ℕ) :
    σ.neighbours start = .ok (lastAddr 0 (FreeList.place Prod.snd start xs).1,
      headAddr 0 (FreeList.place Prod.snd start xs).2) := by
  obtain ⟨y, ys, rfl⟩ := List.exists_cons_of_ne_nil hne
  obtain ⟨hy0, hyl⟩ := Chain.lookup_mid (l := []) h
  have hhead : σ.blockchain = y.1 := h.head_eq
  have hload : load σ.nodes σ.blockchain = .ok ⟨y.2, 0, headAddr 0 ys⟩ := by
    rw [hhead]
    exact load_eq_ok hy0 hyl
  simp only [neighbours, hload, bind, Except.bind, FreeList.place]
  by_cases hlt : start < y.2.start
  · simp only [if_pos hlt, lastAddr_nil, headAddr_cons, hhead]
  · simp only [if_neg hlt, h.advance_eq]
    set tw := ys.takeWhile (fun z => decide (z.2.start < start)) with htw
    set dw := ys.dropWhile (fun z => decide (z.2.start < start)) with hdw
    -- The last node passed is a member of the chain, so its `next` is the first one left.
    obtain ⟨l, b, hlb⟩ : ∃ l b, y :: tw = l ++ [b] := by
      rcases List.eq_nil_or_concat (y :: tw) with hc | ⟨l, b, hc⟩
      · simp at hc
      · exact ⟨l, b, by rw [hc, List.concat_eq_append]⟩
    have hsplit : y :: ys = l ++ b :: dw := by
      rw [show l ++ b :: dw = (l ++ [b]) ++ dw by simp, ← hlb, List.cons_append, htw, hdw,
        List.takeWhile_append_dropWhile]
    have hlast : lastAddr y.1 tw = b.1 := by
      have : lastAddr 0 (y :: tw) = b.1 := by rw [hlb]; simp
      simpa using this
    rw [hsplit] at h
    obtain ⟨hb0, hbl⟩ := h.lookup_mid
    simp only [hlast, load_eq_ok hb0 hbl, lastAddr_cons]

/-- `print_blockchain` only moves the head pointer, from any block to the first. -/
theorem printBlockchain_spec {σ : Vmm} {head : ℕ} {xs : List (ℕ × Span)}
    (h : Chain σ.nodes head xs) (hmem : σ.blockchain ∈ xs.map Prod.fst) :
    σ.printBlockchain = .ok { σ with blockchain := head } := by
  obtain ⟨x, hx, hxb⟩ := List.mem_map.mp hmem
  obtain ⟨l, r, rfl⟩ := List.append_of_mem hx
  have hrew := h.rewind_eq
  rw [← h.head_eq] at hrew
  simp only [printBlockchain, ← hxb, hrew, h.total_eq, bind, Except.bind]

/-- Extending a block to the right, over the gap to the next block if that is all
there is between them. -/
theorem extendLeft_spec {H : Heap Span} {head : ℕ} {l r : List (ℕ × Span)} {b : ℕ × Span}
    (h : Chain H head (l ++ b :: r)) (pages : ℕ) :
    ∃ H' ys, extendLeft H b.1 (headAddr 0 r) pages = .ok H' ∧ Chain H' head ys ∧
      ys.map Prod.snd = l.map Prod.snd ++
        FreeList.pushFront pageSize ⟨b.2.start, b.2.size + pages⟩ (r.map Prod.snd) := by
  obtain ⟨hb0, -⟩ := h.lookup_mid
  obtain ⟨H₁, e₁, hc₁, hl₁⟩ := h.modify_val (extend pages) ⟨b.2.start, b.2.size + pages⟩ rfl
  simp only [extendLeft, e₁, load_eq_ok hb0 hl₁, bind, Except.bind]
  rcases r with _ | ⟨c, r⟩
  · refine ⟨H₁, _, ?_, hc₁, by simp [FreeList.pushFront]⟩
    simp [passes_null]
  · have hc' : Chain H₁ head ((l ++ [(b.1, ⟨b.2.start, b.2.size + pages⟩)]) ++ c :: r) := by
      simpa using hc₁
    obtain ⟨hc0, hcl⟩ := hc'.lookup_mid
    simp only [headAddr_cons, passes_eq hc0 hcl, load_eq_ok hc0 hcl]
    by_cases ht : (⟨b.2.start, b.2.size + pages⟩ : Span).stop pageSize = c.2.start
    · obtain ⟨H₂, e₂, hc₂, -⟩ := hc₁.modify_val (extend c.2.size)
        ⟨b.2.start, b.2.size + pages + c.2.size⟩ rfl
      have hc₂' : Chain H₂ head
          ((l ++ [(b.1, ⟨b.2.start, b.2.size + pages + c.2.size⟩)]) ++ c :: r) := by
        simpa using hc₂
      obtain ⟨H₃, H₄, e₃, e₄, hc₄⟩ := hc₂'.unlink
      have hhead : headAddr 0 ((l ++ [(b.1, ⟨b.2.start, b.2.size + pages + c.2.size⟩)]) ++ r) =
          head := by
        rw [hc₂'.head_eq]
        simp
      rw [hhead] at hc₄
      simp only [lastAddr_append, lastAddr_cons, lastAddr_nil] at e₃ e₄
      refine ⟨H₄.erase c.1, _, ?_, hc₄, ?_⟩
      · simp [ht, e₂, e₃, e₄]
      · simp [FreeList.pushFront, ht]
    · refine ⟨H₁, _, ?_, hc₁, ?_⟩
      · simp [ht]
      · simp [FreeList.pushFront, ht]

/-- A range that touches a neighbour is merged with it, without a new record. -/
theorem returnRange_merge (kmalloc : KMalloc) {σ : Vmm} {l r : List (ℕ × Span)}
    (h : Chain σ.nodes σ.blockchain (l ++ r)) {start pages : ℕ}
    (ht : touches start pages l r = true) :
    ∃ nodes ys, σ.returnRange kmalloc (lastAddr 0 l) (headAddr 0 r) start pages =
        .ok { σ with nodes := nodes } ∧ Chain nodes σ.blockchain ys ∧
      ys.map Prod.snd =
        FreeList.weld pageSize ⟨start, pages⟩ (l.map Prod.snd) (r.map Prod.snd) := by
  -- The left neighbour is tried first; the right one only when that does not touch.
  have hright : (∀ b, l.getLast? = some b → start ≠ b.2.stop pageSize) →
      passes σ.nodes (lastAddr 0 l) (fun b => start = b.stop pageSize) = .ok false →
      ∃ nodes ys, σ.returnRange kmalloc (lastAddr 0 l) (headAddr 0 r) start pages =
          .ok { σ with nodes := nodes } ∧ Chain nodes σ.blockchain ys ∧
        ys.map Prod.snd =
          FreeList.weld pageSize ⟨start, pages⟩ (l.map Prod.snd) (r.map Prod.snd) := by
    intro hnot hpass
    have hany : l.getLast?.any (fun b => start = b.2.stop pageSize) = false := by
      cases hlast : l.getLast? with
      | none => rfl
      | some b => simpa using hnot b hlast
    rw [touches, hany, Bool.false_or] at ht
    rcases r with _ | ⟨c, r⟩
    · simp at ht
    · have htc : start + pages * pageSize = c.2.start := by simpa using ht
      obtain ⟨hc0, hcl⟩ := h.lookup_mid
      have hval : c.2.start - pages * pageSize = start := by omega
      obtain ⟨H₁, e₁, hc₁, -⟩ := h.modify_val (extendDown pages) ⟨start, c.2.size + pages⟩
        (by simp [extendDown, hval])
      have hpush : FreeList.pushFront pageSize ⟨start, pages⟩ (c.2 :: r.map Prod.snd) =
          ⟨start, c.2.size + pages⟩ :: r.map Prod.snd := by
        rw [FreeList.pushFront, if_pos (show Span.stop pageSize ⟨start, pages⟩ = c.2.start from htc),
          Nat.add_comm]
      refine ⟨H₁, _, ?_, hc₁, ?_⟩
      · simp [returnRange, hpass, passes_eq hc0 hcl, htc, e₁, bind, Except.bind]
      · rcases List.eq_nil_or_concat l with rfl | ⟨l, b, rfl⟩
        · simpa using hpush.symm
        · rw [List.concat_eq_append] at hnot ⊢
          have hb : b.2.stop pageSize ≠ start := (hnot b (by simp)).symm
          simp [FreeList.settle, hb, hpush]
  rcases List.eq_nil_or_concat l with rfl | ⟨l, b, rfl⟩
  · exact hright (by simp) (passes_null _ _)
  · rw [List.concat_eq_append] at h hright ⊢
    rw [List.append_assoc, List.singleton_append] at h
    obtain ⟨hb0, hbl⟩ := h.lookup_mid
    by_cases hb : start = b.2.stop pageSize
    · obtain ⟨H', ys, e, hc, hys⟩ := extendLeft_spec h pages
      refine ⟨H', ys, ?_, hc, ?_⟩
      · simp [returnRange, passes_eq hb0 hbl, hb, e, bind, Except.bind]
      · simp [FreeList.settle, hb, hys]
    · refine hright ?_ ?_
      · intro b' hb'
        rw [List.getLast?_concat, Option.some.injEq] at hb'
        rw [← hb']
        exact hb
      · simp [passes_eq hb0 hbl, hb]

/-- A range that touches neither neighbour needs a new record. -/
theorem returnRange_insert (kmalloc : KMalloc) {σ : Vmm} {l r : List (ℕ × Span)}
    (h : Chain σ.nodes σ.blockchain (l ++ r)) {start pages : ℕ}
    (ht : touches start pages l r = false) :
    σ.returnRange kmalloc (lastAddr 0 l) (headAddr 0 r) start pages =
        σ.insertBlock kmalloc (lastAddr 0 l) (headAddr 0 r) start pages := by
  rw [touches, Bool.or_eq_false_iff] at ht
  have hleft : passes σ.nodes (lastAddr 0 l) (fun b => start = b.stop pageSize) = .ok false := by
    rcases List.eq_nil_or_concat l with rfl | ⟨l, b, rfl⟩
    · rfl
    · rw [List.concat_eq_append] at h ht ⊢
      rw [List.append_assoc, List.singleton_append] at h
      obtain ⟨hb0, hbl⟩ := h.lookup_mid
      have hb : start ≠ b.2.stop pageSize := by simpa using ht.1
      simp [passes_eq hb0 hbl, hb]
  have hright : passes σ.nodes (headAddr 0 r) (fun b => start + pages * pageSize = b.start) =
      .ok false := by
    rcases r with _ | ⟨c, r⟩
    · rfl
    · obtain ⟨hc0, hcl⟩ := h.lookup_mid
      have hc : start + pages * pageSize ≠ c.2.start := by simpa using ht.2
      simp [passes_eq hc0 hcl, hc]
  simp [returnRange, hleft, hright, bind, Except.bind]

/-- Where nothing touches, welding is insertion. -/
theorem weld_of_not_touches {start pages : ℕ} {l r : List (ℕ × Span)}
    (ht : touches start pages l r = false) :
    FreeList.weld pageSize ⟨start, pages⟩ (l.map Prod.snd) (r.map Prod.snd) =
      l.map Prod.snd ++ ⟨start, pages⟩ :: r.map Prod.snd := by
  rw [touches, Bool.or_eq_false_iff] at ht
  have hpush : FreeList.pushFront pageSize ⟨start, pages⟩ (r.map Prod.snd) =
      ⟨start, pages⟩ :: r.map Prod.snd := by
    rcases r with _ | ⟨c, r⟩
    · rfl
    · have hc : start + pages * pageSize ≠ c.2.start := by simpa using ht.2
      exact if_neg hc
  rcases List.eq_nil_or_concat l with rfl | ⟨l, b, rfl⟩
  · simpa using hpush
  · rw [List.concat_eq_append] at ht ⊢
    have hb : start ≠ b.2.stop pageSize := by simpa using ht.1
    simp [FreeList.settle, hb.symm, hpush]

/-- Inserting the record `kmalloc` supplies, when the neighbours are still there after
the call. -/
theorem insertBlock_spec {kmalloc : KMalloc} {σ σ₁ : Vmm} {new : ℕ}
    (hk : kmalloc σ = .ok (new, σ₁)) {l r : List (ℕ × Span)}
    (h : Chain σ₁.nodes σ₁.blockchain (l ++ r)) (hnew : new ≠ 0)
    (hfresh : new ∉ (l ++ r).map Prod.fst) (start pages : ℕ) :
    ∃ nodes, σ.insertBlock kmalloc (lastAddr 0 l) (headAddr 0 r) start pages =
        .ok { σ₁ with nodes := nodes } ∧
      Chain nodes (headAddr 0 (l ++ (new, ⟨start, pages⟩) :: r))
        (l ++ (new, ⟨start, pages⟩) :: r) := by
  obtain ⟨H₁, H₂, e₁, e₂, hc⟩ := h.link (x := (new, ⟨start, pages⟩)) hnew hfresh
  refine ⟨H₂, ?_, hc⟩
  simp only [insertBlock, hk, create_eq_ok hnew, bind, Except.bind]
  simp only at e₁ e₂
  rw [e₁]
  simp only
  rw [e₂]

/-! ## The entry points -/

/-- The blocks of a list of records. -/
abbrev blocks (xs : List (ℕ × Span)) : List Span := xs.map Prod.snd

/-- **`vmm_mmap` is first fit.** It returns null and changes nothing when no block has
room, and otherwise cuts the pages off the first block that has. -/
theorem vmmMmap_spec (kmalloc : KMalloc) {σ : Vmm} {xs : List (ℕ × Span)}
    (h : Chain σ.nodes σ.blockchain xs) (hfirst : σ.firstAlloc = false) (physical pages : ℕ)
    (isKernel : Bool) :
    ((∀ x ∈ xs, x.2.size < pages) ∧
      σ.vmmMmap P kmalloc physical pages isKernel = .ok (0, σ)) ∨
    ∃ l x r, xs = l ++ x :: r ∧ (∀ y ∈ l, y.2.size < pages) ∧ pages ≤ x.2.size ∧
      ∃ nodes head, σ.vmmMmap P kmalloc physical pages isKernel = .ok (x.2.start, { σ with
          paging := σ.paging.ensurePagesMapped P (mapFlags isKernel) pages physical x.2.start
          nodes := nodes
          blockchain := head
          calls := .mapped x.2.start pages physical isKernel :: σ.calls }) ∧
        Chain nodes head (l ++ restNode x pages ++ r) ∧
        ∀ a, a ∈ nodes ↔ a ∈ σ.nodes ∧ (x.2.size = pages → a ≠ x.1) := by
  by_cases hsmall : ∀ x ∈ xs, x.2.size < pages
  · refine .inl ⟨hsmall, ?_⟩
    rw [vmmMmap]
    by_cases hb : σ.blockchain = 0
    · rw [if_pos hb, hfirst]
      rfl
    · rw [if_neg hb]
      exact takePages_none h hsmall
  · right
    have hdrop : xs.dropWhile (fun x => decide (x.2.size < pages)) ≠ [] := by
      intro hc
      rw [List.dropWhile_eq_nil_iff] at hc
      exact hsmall fun x hx => by simpa using hc x hx
    obtain ⟨x, r, hxr⟩ := List.exists_cons_of_ne_nil hdrop
    have hsplit : xs = xs.takeWhile (fun x => decide (x.2.size < pages)) ++ x :: r := by
      rw [← hxr, List.takeWhile_append_dropWhile]
    have hl : ∀ y ∈ xs.takeWhile (fun x => decide (x.2.size < pages)), y.2.size < pages :=
      fun y hy => by simpa using List.mem_takeWhile_imp hy
    have hx : pages ≤ x.2.size := by
      have := List.head_dropWhile_not (fun x : ℕ × Span => decide (x.2.size < pages)) hdrop
      simp only [hxr, List.head_cons, decide_eq_false_iff_not] at this
      omega
    refine ⟨_, x, r, hsplit, hl, hx, ?_⟩
    rw [hsplit] at h
    have hb : σ.blockchain ≠ 0 := fun hc => by simpa using h.head_eq_zero_iff.mp hc
    rw [vmmMmap, if_neg hb]
    exact takePages_some h hl hx

/-- Freeing into an empty list. -/
theorem vmmFreePages_first {kmalloc : KMalloc} {σ σ₁ : Vmm} {new : ℕ} (hb : σ.blockchain = 0)
    (hk : kmalloc σ = .ok (new, σ₁)) (hnew : new ≠ 0) (start pages : ℕ) :
    ∃ nodes, σ.vmmFreePages kmalloc start pages = .ok { σ₁ with
        nodes := nodes, blockchain := new, calls := .freed start pages :: σ₁.calls } ∧
      Chain nodes new [(new, ⟨start, pages⟩)] := by
  have hc : Chain (σ₁.nodes.insert new ⟨⟨start, pages⟩, 0, 0⟩) new [(new, ⟨start, pages⟩)] :=
    ⟨⟨hnew, AList.lookup_insert _, trivial⟩, by simp, rfl⟩
  refine ⟨_, ?_, hc⟩
  simp only [vmmFreePages, if_pos hb, firstBlock, hk, create_eq_ok hnew, bind, Except.bind]
  exact printBlockchain_spec hc (by simp)

/-- Freeing next to a free block. -/
theorem vmmFreePages_merge (kmalloc : KMalloc) {σ : Vmm} {xs : List (ℕ × Span)}
    (h : Chain σ.nodes σ.blockchain xs) (hne : xs ≠ []) {start pages : ℕ}
    (ht : touches start pages (FreeList.place Prod.snd start xs).1
      (FreeList.place Prod.snd start xs).2 = true) :
    ∃ nodes ys, σ.vmmFreePages kmalloc start pages = .ok { σ with
        nodes := nodes, calls := .freed start pages :: σ.calls } ∧
      Chain nodes σ.blockchain ys ∧
      blocks ys = FreeList.put pageSize ⟨start, pages⟩ (blocks xs) := by
  have hb : σ.blockchain ≠ 0 := fun hc => hne (h.head_eq_zero_iff.mp hc)
  have hsplit := FreeList.place_append Prod.snd start xs
  have h' := h
  rw [← hsplit] at h'
  obtain ⟨nodes, ys, e, hc, hys⟩ := returnRange_merge kmalloc h' ht
  rw [show FreeList.weld pageSize ⟨start, pages⟩ _ _ = _ from
    (FreeList.put_eq_weld Prod.snd pageSize ⟨start, pages⟩ xs).symm] at hys
  refine ⟨nodes, ys, ?_, hc, hys⟩
  have hys0 : σ.blockchain ∈ ys.map Prod.fst := by
    have hne' : ys ≠ [] := fun hn => hb (hc.head_eq_zero_iff.mpr hn)
    obtain ⟨y, ys, rfl⟩ := List.exists_cons_of_ne_nil hne'
    rw [hc.head_eq]
    simp
  simp only [vmmFreePages, if_neg hb, neighbours_spec h hne, e, bind, Except.bind]
  exact printBlockchain_spec hc hys0

/-- Freeing between two free blocks that it does not touch, and that are still there
when `kmalloc` has supplied the record. -/
theorem vmmFreePages_insert {kmalloc : KMalloc} {σ σ₁ : Vmm} {new : ℕ} {xs : List (ℕ × Span)}
    (h : Chain σ.nodes σ.blockchain xs) (hne : xs ≠ []) {start pages : ℕ}
    (ht : touches start pages (FreeList.place Prod.snd start xs).1
      (FreeList.place Prod.snd start xs).2 = false)
    (hk : kmalloc σ = .ok (new, σ₁)) {l r : List (ℕ × Span)}
    (h₁ : Chain σ₁.nodes σ₁.blockchain (l ++ r)) (hlr : l ++ r ≠ [])
    (hl : lastAddr 0 l = lastAddr 0 (FreeList.place Prod.snd start xs).1)
    (hr : headAddr 0 r = headAddr 0 (FreeList.place Prod.snd start xs).2)
    (hnew : new ≠ 0) (hfresh : new ∉ (l ++ r).map Prod.fst) :
    ∃ nodes head, σ.vmmFreePages kmalloc start pages = .ok { σ₁ with
        nodes := nodes, blockchain := head, calls := .freed start pages :: σ₁.calls } ∧
      Chain nodes head (l ++ (new, ⟨start, pages⟩) :: r) := by
  have hb : σ.blockchain ≠ 0 := fun hc => hne (h.head_eq_zero_iff.mp hc)
  have h' := h
  rw [← FreeList.place_append Prod.snd start xs] at h'
  obtain ⟨nodes, e, hc⟩ := insertBlock_spec hk h₁ hnew hfresh start pages
  refine ⟨nodes, _, ?_, hc⟩
  have hmem : σ₁.blockchain ∈ (l ++ (new, (⟨start, pages⟩ : Span)) :: r).map Prod.fst := by
    rw [h₁.head_eq]
    obtain ⟨y, ys, hy⟩ := List.exists_cons_of_ne_nil hlr
    have hyl : y ∈ l ++ r := by rw [hy]; exact List.mem_cons_self ..
    rw [hy, headAddr_cons]
    refine List.mem_map_of_mem ?_
    rcases List.mem_append.mp hyl with hm | hm
    · exact List.mem_append_left _ hm
    · exact List.mem_append_right _ (List.mem_cons_of_mem _ hm)
  simp only [vmmFreePages, if_neg hb, neighbours_spec h hne, bind, Except.bind,
    returnRange_insert kmalloc h' ht]
  rw [← hl, ← hr, e]
  exact printBlockchain_spec hc hmem

end Vmm
end BootableKernel
