import BootableKernel.Memory.Blockchain
import BootableKernel.Memory.Boot

/-!
# Freeing pages when `kmalloc` re-enters the allocator

`vmm_free_pages` looks up the blocks to the left and right of a range, then asks
`kmalloc` for a record if the range touches neither. `kmalloc` may have to take pages
itself, by `vmm_mmap(NULL, k, true)`, and that call may use up and release one of the
two blocks. The record is then linked to a block that no longer exists. It may also
find no block with room, in which case the code writes through the null pointer.

`starved` says when one of the two happens. Outside that case a release does what it
should, whatever `kmalloc` does, and in it the code always fails.
-/

namespace BootableKernel

open LinkedList

namespace Vmm
variable {P : Platform}

/-- The record a supply hands out is not in use. -/
def Supply.Fresh (supply : Supply) (σ : Vmm) : Prop := supply.node ≠ 0 ∧ supply.node ∉ σ.nodes

/-- The records before and after the place of a range. -/
abbrev before (start : ℕ) (xs : List (ℕ × Span)) : List (ℕ × Span) :=
  (FreeList.place Prod.snd start xs).1

@[inherit_doc before]
abbrev after (start : ℕ) (xs : List (ℕ × Span)) : List (ℕ × Span) :=
  (FreeList.place Prod.snd start xs).2

/-- The range from `start` on touches a free block. -/
def merges (start pages : ℕ) (xs : List (ℕ × Span)) : Bool :=
  touches start pages (before start xs) (after start xs)

/-- A nested request for `k` pages cannot be served, or uses up a neighbour of the range
that starts at `start`. -/
def starved (k start : ℕ) (xs : List (ℕ × Span)) : Bool :=
  match xs.find? (fun b => decide (k ≤ b.2.size)) with
  | none => true
  | some y =>
      decide (y.2.size = k) &&
        ((before start xs).getLast? == some y || (after start xs).head? == some y)

/-! ## Failing insertions -/

theorem insertBlock_null {kmalloc : KMalloc} {σ σ₁ : Vmm} (hk : kmalloc σ = .ok (0, σ₁))
    (left right start pages : ℕ) :
    σ.insertBlock kmalloc left right start pages = .error .null := by
  simp [insertBlock, hk, create, bind, Except.bind]

/-- Linking to a record that was released in the meantime. -/
theorem insertBlock_dead {kmalloc : KMalloc} {σ σ₁ : Vmm} {new left right dead : ℕ}
    (hk : kmalloc σ = .ok (new, σ₁)) (hd0 : dead ≠ 0) (hnew : dead ≠ new) (hd : dead ∉ σ₁.nodes)
    (hlr : left = dead ∨ right = dead) (start pages : ℕ) :
    ∃ e, σ.insertBlock kmalloc left right start pages = .error e := by
  by_cases hn0 : new = 0
  · exact ⟨_, insertBlock_null (hn0 ▸ hk) left right start pages⟩
  have hd₁ : dead ∉ σ₁.nodes.insert new ⟨⟨start, pages⟩, left, right⟩ := by
    rw [AList.mem_insert, not_or]
    exact ⟨hnew, hd⟩
  simp only [insertBlock, hk, create_eq_ok hn0, bind, Except.bind]
  cases hl : setNext (σ₁.nodes.insert new ⟨⟨start, pages⟩, left, right⟩) left new with
  | error e => exact ⟨e, rfl⟩
  | ok H =>
      rcases hlr with rfl | rfl
      · rw [setNext, if_neg hd0, modify_dead hd0 hd₁] at hl
        exact absurd hl (by simp)
      · have hdH : right ∉ H := fun hm => hd₁ ((mem_of_setNext hl).mp hm)
        simp only [setPrev, if_neg hd0, modify_dead hd0 hdH]
        exact ⟨_, rfl⟩

theorem vmmFreePages_error {kmalloc : KMalloc} {σ : Vmm} {xs : List (ℕ × Span)}
    (h : Chain σ.nodes σ.blockchain xs) (hne : xs ≠ []) {start pages : ℕ}
    (ht : merges start pages xs = false)
    (hi : ∃ e, σ.insertBlock kmalloc (lastAddr 0 (before start xs)) (headAddr 0 (after start xs))
      start pages = .error e) :
    ∃ e, σ.vmmFreePages kmalloc start pages = .error e := by
  obtain ⟨e, he⟩ := hi
  have hb : σ.blockchain ≠ 0 := fun hc => hne (h.head_eq_zero_iff.mp hc)
  have h' := h
  rw [← FreeList.place_append Prod.snd start xs] at h'
  refine ⟨e, ?_⟩
  simp only [vmmFreePages, if_neg hb, neighbours_spec h hne, bind, Except.bind,
    returnRange_insert kmalloc h' ht, he]

/-! ## What a release does -/

/-- A release that took no pages for its own record. -/
structure Released (σ σ' : Vmm) (xs : List (ℕ × Span)) (x : Span) (ys : List (ℕ × Span)) :
    Prop where
  chain : Chain σ'.nodes σ'.blockchain ys
  blocks_eq : blocks ys = FreeList.put pageSize x (blocks xs)
  paging_eq : σ'.paging = σ.paging
  first_eq : σ'.firstAlloc = σ.firstAlloc
  calls_eq : σ'.calls = .freed x.start x.size :: σ.calls

/-- A release during which `kmalloc` took `k` pages: they were cut off block `y`, and
the range was inserted between `l` and `r`. -/
structure ReleasedGrown (P : Platform) (σ σ' : Vmm) (xs : List (ℕ × Span)) (x : Span) (k : ℕ)
    (y : Span) (l r : List Span) : Prop where
  chain : ∃ ys, Chain σ'.nodes σ'.blockchain ys ∧ blocks ys = l ++ x :: r
  taken : FreeList.take pageSize k (blocks xs) = some (y.start, l ++ r)
  first : y ∈ blocks xs
  stops : ∀ b ∈ l, ∃ c ∈ blocks (before x.start xs), b.stop pageSize = c.stop pageSize
  starts : ∀ b ∈ r, ∃ c ∈ blocks (after x.start xs), c.start ≤ b.start
  paging_eq : σ'.paging = σ.paging.ensurePagesMapped P (mapFlags true) k 0 y.start
  first_eq : σ'.firstAlloc = σ.firstAlloc
  calls_eq : σ'.calls = .freed x.start x.size :: .mapped y.start k 0 true :: σ.calls

theorem vmmFreePages_atOnce {σ : Vmm} {xs : List (ℕ × Span)} (h : Chain σ.nodes σ.blockchain xs)
    {node : ℕ} (hf : (Supply.atOnce node).Fresh σ) (x : Span) :
    ∃ σ' ys, σ.vmmFreePages ((Supply.atOnce node).kmalloc P) x.start x.size = .ok σ' ∧
      Released σ σ' xs x ys := by
  obtain ⟨hn0, hnode⟩ := hf
  simp only [Supply.node] at hn0 hnode
  have hk : (Supply.atOnce node).kmalloc P σ = .ok (node, σ) := rfl
  have hfresh : node ∉ xs.map Prod.fst := fun hm => hnode (h.seg.mem_heap node hm)
  by_cases hne : xs = []
  · subst hne
    obtain ⟨nodes, e, hc⟩ :=
      vmmFreePages_first (h.head_eq_zero_iff.mpr rfl) hk hn0 x.start x.size
    exact ⟨_, _, e, hc, rfl, rfl, rfl, rfl⟩
  · cases ht : merges x.start x.size xs with
    | true =>
        obtain ⟨nodes, ys, e, hc, hys⟩ :=
          vmmFreePages_merge ((Supply.atOnce node).kmalloc P) h hne ht
        exact ⟨_, ys, e, hc, hys, rfl, rfl, rfl⟩
    | false =>
        have hsplit := FreeList.place_append Prod.snd x.start xs
        obtain ⟨nodes, head, e, hc⟩ := vmmFreePages_insert h hne ht hk
          (l := before x.start xs) (r := after x.start xs) (by rw [hsplit]; exact h)
          (by rw [hsplit]; exact hne) rfl rfl hn0 (by rw [hsplit]; exact hfresh)
        refine ⟨_, _, e, hc, ?_, rfl, rfl, rfl⟩
        have hweld := weld_of_not_touches ht
        rw [show FreeList.weld pageSize ⟨x.start, x.size⟩ _ _ = _ from
          (FreeList.put_eq_weld Prod.snd pageSize x xs).symm] at hweld
        simpa using hweld.symm

/-- Where a member of the second list lies with respect to a split of the whole. -/
theorem append_eq_append_cons {α : Type} {A B l r : List α} {y : α} (h : A ++ B = l ++ y :: r) :
    (∃ t, l = A ++ t ∧ B = t ++ y :: r) ∨ ∃ t, A = l ++ y :: t ∧ r = t ++ B := by
  rcases List.append_eq_append_iff.mp h with h' | ⟨t, hA, hB⟩
  · exact .inl h'
  · rcases t with _ | ⟨z, t⟩
    · exact .inl ⟨[], by simpa using hA.symm, by simpa using hB.symm⟩
    · rw [List.cons_append, List.cons.injEq] at hB
      obtain ⟨rfl, hB⟩ := hB
      exact .inr ⟨t, hA, hB⟩

theorem restNode_ne_nil {k : ℕ} {t : List (ℕ × Span)} {y : ℕ × Span}
    (hkeep : t = [] → y.2.size ≠ k) : t ++ restNode y k ≠ [] := by
  rcases t with _ | ⟨z, t⟩
  · simp [restNode, hkeep rfl]
  · simp

theorem lastAddr_restNode {k : ℕ} {l t : List (ℕ × Span)} {y : ℕ × Span}
    (hkeep : t = [] → y.2.size ≠ k) :
    lastAddr 0 (l ++ restNode y k ++ t) = lastAddr 0 (l ++ y :: t) := by
  rcases t with _ | ⟨z, t⟩
  · simp [restNode, hkeep rfl]
  · simp

theorem headAddr_restNode {k : ℕ} {t r : List (ℕ × Span)} {y : ℕ × Span}
    (hkeep : t = [] → y.2.size ≠ k) :
    headAddr 0 (t ++ restNode y k ++ r) = headAddr 0 (t ++ y :: r) := by
  rcases t with _ | ⟨z, t⟩
  · simp [restNode, hkeep rfl]
  · simp

theorem mem_blocks_cut {k : ℕ} {l t : List (ℕ × Span)} {y : ℕ × Span} (hk : k ≤ y.2.size) {b : Span}
    (hb : b ∈ blocks (l ++ restNode y k ++ t)) :
    ∃ c ∈ blocks (l ++ y :: t), b.stop pageSize = c.stop pageSize ∧ c.start ≤ b.start := by
  simp only [blocks, List.map_append, map_restNode, List.mem_append, List.map_cons,
    List.mem_cons] at hb ⊢
  rcases hb with (hb | hb) | hb
  · exact ⟨b, .inl hb, rfl, le_refl _⟩
  · obtain ⟨-, hs, he⟩ := FreeList.mem_rest hk hb
    exact ⟨y.2, .inr (.inl rfl), he, hs⟩
  · exact ⟨b, .inr (.inr hb), rfl, le_refl _⟩

/-- A range next to a free block is merged, and `kmalloc` is not called. -/
theorem vmmFreePages_merges (kmalloc : KMalloc) {σ : Vmm} {xs : List (ℕ × Span)}
    (h : Chain σ.nodes σ.blockchain xs) (x : Span) (ht : merges x.start x.size xs = true) :
    ∃ σ' ys, σ.vmmFreePages kmalloc x.start x.size = .ok σ' ∧ Released σ σ' xs x ys := by
  have hne : xs ≠ [] := by
    rintro rfl
    simp [merges, touches, before, after, FreeList.place] at ht
  obtain ⟨nodes, ys, e, hc, hys⟩ := vmmFreePages_merge kmalloc h hne ht
  exact ⟨_, ys, e, hc, hys, rfl, rfl, rfl⟩

/-- What a growing `kmalloc` does, from the first-fit block on. -/
theorem kmalloc_grow {σ : Vmm} {xs : List (ℕ × Span)} (h : Chain σ.nodes σ.blockchain xs)
    (hfirst : σ.firstAlloc = false) (hpos : ∀ x ∈ xs, 0 < x.2.start) (k node : ℕ)
    (nested : Supply) :
    ((xs.find? (fun b => decide (k ≤ b.2.size)) = none) ∧
      (Supply.grow k nested node).kmalloc P σ = .ok (0, σ)) ∨
    ∃ l y r, xs = l ++ y :: r ∧ xs.find? (fun b => decide (k ≤ b.2.size)) = some y ∧
      (∀ z ∈ l, z.2.size < k) ∧ k ≤ y.2.size ∧
      ∃ nodes head, (Supply.grow k nested node).kmalloc P σ = .ok (node, { σ with
          paging := σ.paging.ensurePagesMapped P (mapFlags true) k 0 y.2.start
          nodes := nodes
          blockchain := head
          calls := .mapped y.2.start k 0 true :: σ.calls }) ∧
        Chain nodes head (l ++ restNode y k ++ r) ∧
        ∀ a, a ∈ nodes ↔ a ∈ σ.nodes ∧ (y.2.size = k → a ≠ y.1) := by
  rcases vmmMmap_spec (P := P) (nested.kmalloc P) h hfirst 0 k true with
    ⟨hsmall, e⟩ | ⟨l, y, r, rfl, hl, hy, nodes, head, e, hc, hm⟩
  · refine .inl ⟨?_, ?_⟩
    · rw [List.find?_eq_none]
      intro x hx
      simpa using hsmall x hx
    · simp [Supply.kmalloc, e, bind, Except.bind]
  · refine .inr ⟨l, y, r, rfl, ?_, hl, hy, nodes, head, ?_, hc, hm⟩
    · rw [List.find?_append, List.find?_eq_none.mpr fun z hz => by simpa using hl z hz]
      simp [hy]
    · have hy0 : y.2.start ≠ 0 := by
        have := hpos y (by simp)
        omega
      simp [Supply.kmalloc, e, hy0, bind, Except.bind]

/-- **A starved release fails**: the null pointer or a released record is written to. -/
theorem vmmFreePages_starved {σ : Vmm} {xs : List (ℕ × Span)} (h : Chain σ.nodes σ.blockchain xs)
    (hfirst : σ.firstAlloc = false) (hpos : ∀ x ∈ xs, 0 < x.2.start) {k node : ℕ}
    {nested : Supply} (hf : (Supply.grow k nested node).Fresh σ) (x : Span)
    (ht : merges x.start x.size xs = false) (hs : starved k x.start xs = true) :
    ∃ e, σ.vmmFreePages ((Supply.grow k nested node).kmalloc P) x.start x.size = .error e := by
  obtain ⟨hn0, hnode⟩ := hf
  simp only [Supply.node] at hn0 hnode
  rcases kmalloc_grow (P := P) h hfirst hpos k node nested with
    ⟨-, e⟩ | ⟨l, y, r, hxs, hfind, hl, hy, nodes, head, e, hc, hm⟩
  · by_cases hne : xs = []
    · subst hne
      refine ⟨.null, ?_⟩
      simp only [vmmFreePages, if_pos (h.head_eq_zero_iff.mpr rfl), firstBlock, e, create, if_true,
        bind, Except.bind]
    · exact vmmFreePages_error h hne ht ⟨_, insertBlock_null e _ _ _ _⟩
  · have hne : xs ≠ [] := by simp [hxs]
    rw [starved, hfind] at hs
    simp only [Bool.and_eq_true, decide_eq_true_eq, Bool.or_eq_true, beq_iff_eq] at hs
    obtain ⟨hsize, hside⟩ := hs
    have hylive : y.1 ∈ σ.nodes := h.seg.mem_heap y.1 (by simp [hxs])
    have hy0 : y.1 ≠ 0 := h.seg.ne_zero y.1 (by simp [hxs])
    have hdead : y.1 ∉ nodes := fun hmem => ((hm y.1).mp hmem).2 hsize rfl
    have hynode : y.1 ≠ node := fun hc => hnode (hc ▸ hylive)
    refine vmmFreePages_error h hne ht (insertBlock_dead e hy0 hynode hdead ?_ _ _)
    rcases hside with hlast | hhead
    · left
      obtain ⟨t, ht'⟩ := List.getLast?_eq_some_iff.mp hlast
      rw [ht']
      simp
    · right
      rw [List.head?_eq_some_iff] at hhead
      obtain ⟨t, ht'⟩ := hhead
      rw [ht']
      simp

/-- The list that first fit leaves. -/
theorem take_blocks {n : ℕ} {l r : List (ℕ × Span)} {x : ℕ × Span} (hl : ∀ y ∈ l, y.2.size < n)
    (hx : n ≤ x.2.size) :
    FreeList.take pageSize n (blocks (l ++ x :: r)) =
      some (x.2.start, blocks (l ++ restNode x n ++ r)) := by
  simp only [blocks, List.map_append, List.map_cons, map_restNode]
  refine FreeList.take_append (fun c hc => ?_) hx
  obtain ⟨z, hz, rfl⟩ := List.mem_map.mp hc
  exact hl z hz

/-- **A growing release that is not starved** inserts the range, whatever block the
nested call took its pages from. -/
theorem vmmFreePages_grow {σ : Vmm} {xs : List (ℕ × Span)} (h : Chain σ.nodes σ.blockchain xs)
    (hfirst : σ.firstAlloc = false) (hpos : ∀ x ∈ xs, 0 < x.2.start) {k node : ℕ}
    {nested : Supply} (hf : (Supply.grow k nested node).Fresh σ) (x : Span)
    (ht : merges x.start x.size xs = false) (hs : starved k x.start xs = false) :
    ∃ σ' y l r, σ.vmmFreePages ((Supply.grow k nested node).kmalloc P) x.start x.size = .ok σ' ∧
      ReleasedGrown P σ σ' xs x k y l r := by
  obtain ⟨hn0, hnode⟩ := hf
  simp only [Supply.node] at hn0 hnode
  rcases kmalloc_grow (P := P) h hfirst hpos k node nested with
    ⟨hnone, -⟩ | ⟨l, y, r, hxs, hfind, hl, hy, nodes, head, e, hc, hm⟩
  · rw [starved, hnone] at hs
    exact absurd hs (by simp)
  · have hne : xs ≠ [] := by simp [hxs]
    rw [starved, hfind] at hs
    have htake : FreeList.take pageSize k (blocks xs) =
        some (y.2.start, blocks (l ++ restNode y k ++ r)) := by
      rw [hxs]
      exact take_blocks hl hy
    have hfresh : node ∉ (l ++ restNode y k ++ r).map Prod.fst :=
      fun hmem => hnode ((hm node).mp (hc.seg.mem_heap node hmem)).1
    have hsplit : before x.start xs ++ after x.start xs = l ++ y :: r := by
      rw [FreeList.place_append, hxs]
    have hyx : y.2 ∈ blocks xs := by simp [hxs]
    -- The block that was cut lies before the range or after it; either way the neighbours
    -- of the range are still in place.
    have finish : ∀ l₁ r₁, l ++ restNode y k ++ r = l₁ ++ r₁ → l₁ ++ r₁ ≠ [] →
        lastAddr 0 l₁ = lastAddr 0 (before x.start xs) →
        headAddr 0 r₁ = headAddr 0 (after x.start xs) →
        (∀ b ∈ blocks l₁, ∃ c ∈ blocks (before x.start xs), b.stop pageSize = c.stop pageSize) →
        (∀ b ∈ blocks r₁, ∃ c ∈ blocks (after x.start xs), c.start ≤ b.start) →
        ∃ σ' y l r, σ.vmmFreePages ((Supply.grow k nested node).kmalloc P) x.start x.size =
          .ok σ' ∧ ReleasedGrown P σ σ' xs x k y l r := by
      intro l₁ r₁ hsame hlr hlast hhead hstops hstarts
      rw [hsame] at hc htake hfresh
      obtain ⟨nodes', head', e', hc'⟩ := vmmFreePages_insert h hne ht e hc hlr hlast hhead hn0 hfresh
      refine ⟨_, y.2, blocks l₁, blocks r₁, e', ⟨_, hc', by simp⟩, ?_, hyx, hstops, hstarts,
        rfl, rfl, rfl⟩
      rw [htake]
      simp
    rcases append_eq_append_cons hsplit with ⟨t, hlt, hrt⟩ | ⟨t, hlt, hrt⟩
    · have hkeep : t = [] → y.2.size ≠ k := by
        rintro rfl hsize
        simp [hsize, hrt] at hs
      refine finish (before x.start xs) (t ++ restNode y k ++ r) (by simp [hlt]) ?_ rfl ?_
        (fun b hb => ⟨b, hb, rfl⟩) ?_
      · intro hnil
        simp only [List.append_eq_nil_iff] at hnil
        exact restNode_ne_nil hkeep (List.append_eq_nil_iff.mpr hnil.2.1)
      · rw [hrt]
        exact headAddr_restNode hkeep
      · intro b hb
        obtain ⟨c, hc, -, hle⟩ := mem_blocks_cut hy hb
        exact ⟨c, by rw [hrt]; exact hc, hle⟩
    · have hkeep : t = [] → y.2.size ≠ k := by
        rintro rfl hsize
        simp [hsize, hlt] at hs
      refine finish (l ++ restNode y k ++ t) (after x.start xs) (by simp [hrt]) ?_ ?_ rfl ?_
        (fun b hb => ⟨b, hb, le_refl _⟩)
      · intro hnil
        simp only [List.append_eq_nil_iff] at hnil
        exact restNode_ne_nil hkeep (List.append_eq_nil_iff.mpr ⟨hnil.1.2, hnil.1.1.2⟩)
      · rw [hlt]
        exact lastAddr_restNode hkeep
      · intro b hb
        obtain ⟨c, hc, hstop, -⟩ := mem_blocks_cut hy hb
        exact ⟨c, by rw [hlt]; exact hc, hstop⟩

/-- The pages a supply takes from the allocator before it hands out its record. -/
def Supply.grows : Supply → Option ℕ
  | .atOnce _ => none
  | .grow k _ _ => some k

/-- A release that does not fail has one of the two effects. -/
theorem vmmFreePages_ok {σ σ' : Vmm} {xs : List (ℕ × Span)} (h : Chain σ.nodes σ.blockchain xs)
    (hfirst : σ.firstAlloc = false) (hpos : ∀ x ∈ xs, 0 < x.2.start) {supply : Supply}
    (hf : supply.Fresh σ) {x : Span}
    (hok : σ.vmmFreePages (supply.kmalloc P) x.start x.size = .ok σ') :
    (∃ ys, Released σ σ' xs x ys) ∨
      ∃ k y l r, supply.grows = some k ∧ merges x.start x.size xs = false ∧
        ReleasedGrown P σ σ' xs x k y l r := by
  cases supply with
  | atOnce node =>
      obtain ⟨τ, ys, e, hrel⟩ := vmmFreePages_atOnce (P := P) h hf x
      obtain rfl : τ = σ' := Except.ok.inj (e.symm.trans hok)
      exact .inl ⟨ys, hrel⟩
  | grow k nested node =>
      cases ht : merges x.start x.size xs with
      | true =>
          obtain ⟨τ, ys, e, hrel⟩ := vmmFreePages_merges
            ((Supply.grow k nested node).kmalloc P) h x ht
          obtain rfl : τ = σ' := Except.ok.inj (e.symm.trans hok)
          exact .inl ⟨ys, hrel⟩
      | false =>
          cases hs : starved k x.start xs with
          | true =>
              obtain ⟨e, he⟩ := vmmFreePages_starved (P := P) h hfirst hpos hf x ht hs
              exact absurd (he.symm.trans hok) (by simp)
          | false =>
              obtain ⟨τ, y, l, r, e, hrel⟩ := vmmFreePages_grow (P := P) h hfirst hpos hf x ht hs
              obtain rfl : τ = σ' := Except.ok.inj (e.symm.trans hok)
              exact .inr ⟨k, y, l, r, rfl, rfl, hrel⟩

/-! ## Safety of a release -/

/-- The free list of `σ` is well formed: linked both ways from `blockchain` through live
records, sorted and coalesced, inside the heap. -/
structure Listed (σ : Vmm) (xs : List (ℕ × Span)) : Prop where
  chain : Chain σ.nodes σ.blockchain xs
  coalesced : FreeList.Coalesced pageSize (blocks xs)
  inHeap : ∀ b ∈ blocks xs, heapStart ≤ b.start

/-- The pages a list of spans covers. -/
def Covered (l : List Span) (a : ℕ) : Prop := ∃ b ∈ l, b.covers pageSize a = true

theorem covered_iff_countP {l : List Span} {a : ℕ} :
    Covered l a ↔ 0 < l.countP (Span.covers pageSize a) := by
  rw [List.countP_pos_iff]
  rfl

/-- What a release of `x` should do: the list is well formed again, and it has gained
the pages of `x` and lost those that nested calls handed out. -/
def ReleaseSafe (σ σ' : Vmm) (xs : List (ℕ × Span)) (x : Span) : Prop :=
  ∃ ys nested, Listed σ' ys ∧ σ'.calls = .freed x.start x.size :: (nested ++ σ.calls) ∧
    ∀ a, Covered (blocks ys) a ↔
      (Covered (blocks xs) a ∨ x.covers pageSize a = true) ∧ ¬ Covered (outstanding nested) a

theorem pageSize_pos : 0 < pageSize := by decide

theorem Released.listed {σ σ' : Vmm} {xs ys : List (ℕ × Span)} {x : Span}
    (h : Released σ σ' xs x ys) (hl : Listed σ xs) (hx : 0 < x.size) (hheap : heapStart ≤ x.start)
    (hap : ∀ b ∈ blocks xs, FreeList.Apart pageSize x b) : Listed σ' ys := by
  refine ⟨h.chain, ?_, ?_⟩
  · rw [h.blocks_eq]
    exact hl.coalesced.put pageSize_pos hx hap
  · intro b hb
    rw [h.blocks_eq] at hb
    obtain ⟨c, hc, he⟩ := FreeList.start_mem_put hb
    rw [he]
    rcases List.mem_cons.mp hc with rfl | hc
    · exact hheap
    · exact hl.inHeap c hc

theorem Released.safe {σ σ' : Vmm} {xs ys : List (ℕ × Span)} {x : Span}
    (h : Released σ σ' xs x ys) (hl : Listed σ xs) (hx : 0 < x.size) (hheap : heapStart ≤ x.start)
    (hap : ∀ b ∈ blocks xs, FreeList.Apart pageSize x b) : ReleaseSafe σ σ' xs x := by
  refine ⟨ys, [], h.listed hl hx hheap hap, h.calls_eq, fun a => ?_⟩
  have hnone : ¬ Covered (outstanding []) a := by simp [Covered, outstanding]
  rw [covered_iff_countP, h.blocks_eq, FreeList.countP_put pageSize_pos, List.countP_pos_iff]
  simp only [hnone, not_false_iff, and_true, List.mem_cons, exists_eq_or_imp]
  exact or_comm

/-- Around a range that touches no free block there is room on both sides. -/
theorem room_of_not_merges {xs : List (ℕ × Span)} {x : Span}
    (hc : FreeList.Coalesced pageSize (blocks xs)) (hx : 0 < x.size)
    (hap : ∀ b ∈ blocks xs, FreeList.Apart pageSize x b) (ht : merges x.start x.size xs = false) :
    (∀ b ∈ blocks (before x.start xs), b.stop pageSize < x.start) ∧
      ∀ c ∈ blocks (after x.start xs), x.stop pageSize < c.start := by
  obtain ⟨hbef, haft⟩ := FreeList.place_apart Prod.snd pageSize_pos hc hx hap
  rw [merges, touches, Bool.or_eq_false_iff] at ht
  have hsplit := hc
  rw [blocks, ← FreeList.place_append Prod.snd x.start xs, List.map_append,
    FreeList.coalesced_append] at hsplit
  refine ⟨?_, ?_⟩
  · rcases List.eq_nil_or_concat (before x.start xs) with hnil | ⟨l, b, hl⟩
    · simp [hnil]
    · rw [List.concat_eq_append] at hl
      have hb : x.start ≠ b.2.stop pageSize := by simpa [hl] using ht.1
      have hbx := hbef b (by rw [show (FreeList.place Prod.snd x.start xs).1 = _ from hl]; simp)
      have hco := hsplit.1
      rw [show (FreeList.place Prod.snd x.start xs).1 = _ from hl, List.map_append,
        FreeList.coalesced_append] at hco
      rw [hl]
      intro c hmem
      simp only [blocks, List.map_append, List.mem_append, List.map_cons, List.map_nil,
        List.mem_singleton] at hmem
      rcases hmem with hmem | rfl
      · have := hco.2.2 c hmem b.2 (by simp)
        have : b.2.start ≤ b.2.stop pageSize := Nat.le_add_right ..
        omega
      · omega
  · rcases hafter : after x.start xs with _ | ⟨c, r⟩
    · simp
    · have hc' : x.start + x.size * pageSize ≠ c.2.start := by simpa [hafter] using ht.2
      have hxc := haft c (by rw [show (FreeList.place Prod.snd x.start xs).2 = _ from hafter]; simp)
      have hstop : x.stop pageSize = x.start + x.size * pageSize := rfl
      have hco := hsplit.2.1
      rw [show (FreeList.place Prod.snd x.start xs).2 = _ from hafter, List.map_cons,
        FreeList.coalesced_cons] at hco
      simp only [blocks, List.map_cons]
      refine List.forall_mem_cons.mpr ⟨by omega, fun d hd => ?_⟩
      have := hco.2.1 d hd
      have : c.2.start ≤ c.2.stop pageSize := Nat.le_add_right ..
      omega

/-- The pages a nested call takes come off the start of a free block. -/
theorem ReleasedGrown.cut {σ σ' : Vmm} {xs : List (ℕ × Span)} {x y : Span} {k : ℕ}
    {l r : List Span} (h : ReleasedGrown P σ σ' xs x k y l r) :
    ∃ b ∈ blocks xs, k ≤ b.size ∧ y.start = b.start ∧
      ∀ c ∈ l ++ r, c ∈ blocks xs ∨ b.start ≤ c.start := by
  obtain ⟨l₁, b, r₁, hxs, -, hkb, hyb, hlr⟩ := FreeList.exists_of_take h.taken
  refine ⟨b, by rw [hxs]; simp, hkb, hyb, fun c hc => ?_⟩
  rw [hlr] at hc
  simp only [List.mem_append] at hc
  rcases hc with (hc | hc) | hc
  · exact .inl (by rw [hxs]; simp [hc])
  · exact .inr (FreeList.mem_rest hkb hc).2.1
  · exact .inl (by rw [hxs]; simp [hc])

theorem ReleasedGrown.listed {σ σ' : Vmm} {xs : List (ℕ × Span)} {x y : Span} {k : ℕ}
    {l r : List Span} (h : ReleasedGrown P σ σ' xs x k y l r) (hl : Listed σ xs) (hx : 0 < x.size)
    (hheap : heapStart ≤ x.start) (hap : ∀ b ∈ blocks xs, FreeList.Apart pageSize x b)
    (ht : merges x.start x.size xs = false) :
    ∃ ys, Listed σ' ys ∧ blocks ys = l ++ x :: r := by
  obtain ⟨ys, hc, hys⟩ := h.chain
  obtain ⟨hbef, haft⟩ := room_of_not_merges hl.coalesced hx hap ht
  obtain ⟨b, hbx, -, -, hmem⟩ := h.cut
  refine ⟨ys, ⟨hc, ?_, ?_⟩, hys⟩
  · rw [hys]
    refine (hl.coalesced.take h.taken).insert hx (fun c hc => ?_) (fun c hc => ?_)
    · obtain ⟨d, hd, he⟩ := h.stops c hc
      rw [he]
      exact hbef d hd
    · obtain ⟨d, hd, hle⟩ := h.starts c hc
      have := haft d hd
      omega
  · have hrest : ∀ c ∈ l ++ r, heapStart ≤ c.start := by
      intro c hc
      rcases hmem c hc with hc | hc
      · exact hl.inHeap c hc
      · exact le_trans (hl.inHeap b hbx) hc
    intro c hc
    rw [hys] at hc
    rcases List.mem_append.mp hc with hc | hc
    · exact hrest c (List.mem_append_left _ hc)
    · rcases List.mem_cons.mp hc with rfl | hc
      · exact hheap
      · exact hrest c (List.mem_append_right _ hc)

theorem ReleasedGrown.safe {σ σ' : Vmm} {xs : List (ℕ × Span)} {x y : Span} {k : ℕ}
    {l r : List Span} (h : ReleasedGrown P σ σ' xs x k y l r) (hl : Listed σ xs) (hx : 0 < x.size)
    (hheap : heapStart ≤ x.start) (hap : ∀ b ∈ blocks xs, FreeList.Apart pageSize x b)
    (ht : merges x.start x.size xs = false) : ReleaseSafe σ σ' xs x := by
  obtain ⟨ys, hlisted, hys⟩ := h.listed hl hx hheap hap ht
  obtain ⟨b, hbx, hkb, hyb, -⟩ := h.cut
  refine ⟨ys, [.mapped y.start k 0 true], hlisted, h.calls_eq, fun a => ?_⟩
  -- A point is counted once among the old blocks, so what was cut off is gone.
  have hcount := FreeList.countP_take pageSize_pos h.taken a
  have hone := hl.coalesced.countP_le_one pageSize_pos a
  have hnot : (⟨y.start, k⟩ : Span).covers pageSize a = true → x.covers pageSize a = false := by
    intro hcov
    by_contra hxa
    obtain ⟨h₁, h₂⟩ := Span.covers_bounds pageSize_pos hcov
    obtain ⟨h₃, h₄⟩ := Span.covers_bounds pageSize_pos (show x.covers pageSize a = true by simpa using hxa)
    have hcut : (⟨y.start, k⟩ : Span).stop pageSize ≤ b.stop pageSize := by
      simp only [Span.stop, ← hyb]
      exact Nat.add_le_add_left (Nat.mul_le_mul_right _ hkb) _
    have hp := pageSize_pos
    rcases hap b hbx with h' | h'
    · simp only at h₁
      omega
    · omega
  have hys' : (blocks ys).countP (Span.covers pageSize a) =
      (l ++ r).countP (Span.covers pageSize a) + if x.covers pageSize a then 1 else 0 := by
    rw [hys]
    simp only [List.countP_append, List.countP_cons]
    omega
  have hgone : Covered (outstanding [.mapped y.start k 0 true]) a ↔
      (⟨y.start, k⟩ : Span).covers pageSize a = true := by
    simp [Covered, outstanding]
  rw [covered_iff_countP, covered_iff_countP, hgone, hys']
  rw [List.countP_cons] at hcount
  cases hcov : (⟨y.start, k⟩ : Span).covers pageSize a with
  | true =>
      simp only [hcov, if_true] at hcount
      simp only [hnot hcov, Bool.false_eq_true, if_false, not_true, and_false, iff_false]
      omega
  | false =>
      simp only [hcov, Bool.false_eq_true, if_false, Nat.add_zero] at hcount
      cases hxa : x.covers pageSize a with
      | true =>
          simp only [if_true, or_true, Bool.false_eq_true, not_false_iff, and_true, iff_true]
          omega
      | false =>
          simp only [Bool.false_eq_true, if_false, or_false, not_false_iff, and_true, hcount,
            Nat.add_zero]

/-- **When a release is safe under re-entry.** Exactly when `kmalloc` does not re-enter,
or no record is needed because the range touches a free block, or the nested call finds
a block with room and does not use up a neighbour of the range. -/
theorem vmmFreePages_reentry {σ : Vmm} {xs : List (ℕ × Span)} (hl : Listed σ xs)
    (hfirst : σ.firstAlloc = false) {x : Span} (hx : 0 < x.size) (hheap : heapStart ≤ x.start)
    (hap : ∀ b ∈ blocks xs, FreeList.Apart pageSize x b) {supply : Supply} (hf : supply.Fresh σ) :
    (∃ σ', σ.vmmFreePages (supply.kmalloc P) x.start x.size = .ok σ' ∧ ReleaseSafe σ σ' xs x) ↔
      ∀ k, supply.grows = some k →
        merges x.start x.size xs = true ∨ starved k x.start xs = false := by
  have hpos : ∀ y ∈ xs, 0 < y.2.start := fun y hy =>
    lt_of_lt_of_le (by decide) (hl.inHeap y.2 (List.mem_map_of_mem hy))
  cases supply with
  | atOnce node =>
      refine ⟨fun _ k hk => by simp [Supply.grows] at hk, fun _ => ?_⟩
      obtain ⟨σ', ys, e, hrel⟩ := vmmFreePages_atOnce (P := P) hl.chain hf x
      exact ⟨σ', e, hrel.safe hl hx hheap hap⟩
  | grow k nested node =>
      simp only [Supply.grows, Option.some.injEq, forall_eq']
      cases ht : merges x.start x.size xs with
      | true =>
          obtain ⟨σ', ys, e, hrel⟩ := vmmFreePages_merges
            ((Supply.grow k nested node).kmalloc P) hl.chain x ht
          exact ⟨fun _ => .inl rfl, fun _ => ⟨σ', e, hrel.safe hl hx hheap hap⟩⟩
      | false =>
          cases hs : starved k x.start xs with
          | true =>
              obtain ⟨e, he⟩ := vmmFreePages_starved (P := P) hl.chain hfirst hpos hf x ht hs
              refine ⟨?_, fun hc => by simp at hc⟩
              rintro ⟨σ', hok, -⟩
              rw [he] at hok
              exact absurd hok (by simp)
          | false =>
              obtain ⟨σ', y, l, r, e, hrel⟩ :=
                vmmFreePages_grow (P := P) hl.chain hfirst hpos hf x ht hs
              exact ⟨fun _ => .inr rfl, fun _ => ⟨σ', e, hrel.safe hl hx hheap hap ht⟩⟩

/-- A heap whose last 16 pages are free: the bootstrap pages, one page and all that
follows it are outstanding. -/
def nearlyFull : Vmm where
  paging := Boot.sample.paging
  nodes := AList.singleton 0x200040 ⟨⟨heapStart + 32240 * pageSize, 16⟩, 0, 0⟩
  blockchain := 0x200040
  firstAlloc := false
  allocatingBase := false
  pagesAllocatedForBlockchain := 16
  calls := [.mapped (heapStart + 17 * pageSize) 32223 0 true,
    .mapped (heapStart + 16 * pageSize) 1 0 true, .mapped heapStart 16 0 true]

theorem nearlyFull_listed :
    Listed nearlyFull [(0x200040, ⟨heapStart + 32240 * pageSize, 16⟩)] := by
  refine ⟨⟨⟨by decide, rfl, trivial⟩, by decide, rfl⟩, ?_, ?_⟩
  · exact FreeList.coalesced_cons.mpr ⟨by decide, by simp, FreeList.coalesced_nil⟩
  · simp [blocks]

theorem nearlyFull_apart :
    ∀ b ∈ blocks [(0x200040, (⟨heapStart + 32240 * pageSize, 16⟩ : Span))],
      FreeList.Apart pageSize ⟨heapStart + 16 * pageSize, 1⟩ b := by
  intro b hb
  simp only [blocks, List.map_cons, List.map_nil, List.mem_singleton] at hb
  subst hb
  exact .inl (by decide)

/-- Freeing the single page while `kmalloc` needs 16 pages: the nested call uses up the
only free block, which the new record was to be linked to. -/
theorem vmmFreePages_nearlyFull_fails :
    Listed nearlyFull [(0x200040, ⟨heapStart + 32240 * pageSize, 16⟩)] ∧
    (⟨heapStart + 16 * pageSize, 1⟩ : Span) ∈ outstanding nearlyFull.calls ∧
    (Supply.grow 16 (.atOnce 0) 0x7ff0040).Fresh nearlyFull ∧
    ¬ ∃ σ', nearlyFull.vmmFreePages
        ((Supply.grow 16 (.atOnce 0) 0x7ff0040).kmalloc Boot.sample.platform)
        (heapStart + 16 * pageSize) 1 = .ok σ' ∧
      ReleaseSafe nearlyFull σ' [(0x200040, ⟨heapStart + 32240 * pageSize, 16⟩)]
        ⟨heapStart + 16 * pageSize, 1⟩ := by
  have hfresh : (Supply.grow 16 (.atOnce 0) 0x7ff0040).Fresh nearlyFull := ⟨by decide, by decide⟩
  have hpos : ∀ y ∈ [(0x200040, (⟨heapStart + 32240 * pageSize, 16⟩ : Span))], 0 < y.2.start := by
    decide
  refine ⟨nearlyFull_listed, by decide, hfresh, ?_⟩
  rintro ⟨σ', hok, -⟩
  obtain ⟨e, he⟩ := vmmFreePages_starved (P := Boot.sample.platform) nearlyFull_listed.chain rfl
    hpos hfresh ⟨heapStart + 16 * pageSize, 1⟩ (by decide) (by decide)
  exact absurd (hok.symm.trans he) (by simp)

/-- The same heap with one free page more. -/
def lessFull : Vmm :=
  { nearlyFull with
    nodes := AList.singleton 0x200040 ⟨⟨heapStart + 32239 * pageSize, 17⟩, 0, 0⟩
    calls := [.mapped (heapStart + 17 * pageSize) 32222 0 true,
      .mapped (heapStart + 16 * pageSize) 1 0 true, .mapped heapStart 16 0 true] }

theorem lessFull_listed :
    Listed lessFull [(0x200040, ⟨heapStart + 32239 * pageSize, 17⟩)] := by
  refine ⟨⟨⟨by decide, rfl, trivial⟩, by decide, rfl⟩, ?_, ?_⟩
  · exact FreeList.coalesced_cons.mpr ⟨by decide, by simp, FreeList.coalesced_nil⟩
  · simp [blocks]

/-- There the nested call leaves the free block in its place, and the release is safe. -/
theorem vmmFreePages_lessFull_safe :
    ∃ σ', lessFull.vmmFreePages
        ((Supply.grow 16 (.atOnce 0) 0x7fef040).kmalloc Boot.sample.platform)
        (heapStart + 16 * pageSize) 1 = .ok σ' ∧
      ReleaseSafe lessFull σ' [(0x200040, ⟨heapStart + 32239 * pageSize, 17⟩)]
        ⟨heapStart + 16 * pageSize, 1⟩ :=
  (vmmFreePages_reentry (x := ⟨heapStart + 16 * pageSize, 1⟩) lessFull_listed rfl (by decide)
    (by decide)
    (fun b hb => by
      rw [blocks, List.map_singleton, List.mem_singleton] at hb
      subst hb
      exact .inl (by decide))
    (show (Supply.grow 16 (.atOnce 0) 0x7fef040).Fresh lessFull from
      ⟨by decide, by decide⟩)).mpr fun k hk => by
        obtain rfl : 16 = k := Option.some.inj hk
        exact .inr (by decide)

end Vmm
end BootableKernel
