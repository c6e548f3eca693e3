import BootableKernel.Heap.Search

/-!
# Pages for the heap

The page hooks of the kernel keep their own records in the heap: while they hand out or
take back pages they write to these records, release some and ask for others. `Pager` is
what the heap relies on. The hooks leave every allocation that is not theirs alone, and the
pages they hand out are not in use.

`allocate_new_page` puts an empty block at the end of the list, if the hook gives it pages.
-/

namespace BootableKernel

namespace Liballoc

open Arena Links

variable {σ : Type}

/-! ## What the hooks may do -/

/-- The pages of the blocks. -/
abbrev spans (Bs : List Block) : List (ℕ × ℕ) := Bs.map fun b => (b.addr, b.pages)

/-- The cells of all blocks. -/
abbrev allCells (Bs : List Block) : List Cell := Bs.flatMap Block.cells

/-- Every block has a cell. -/
def Full (Bs : List Block) : Prop := ∀ b ∈ Bs, b.cells ≠ []

/-- The same blocks, with fewer cells, but none of them became empty. -/
def Pruned (Bs' Bs : List Block) : Prop :=
  List.Forall₂ (fun b' b => b'.addr = b.addr ∧ b'.pages = b.pages ∧ b'.cells.Sublist b.cells ∧
    (b.cells ≠ [] → b'.cells ≠ [])) Bs' Bs

/-- The cells of `Bs` that are not among `own` are the cells of `Bs'` that are not among
`own'`, and contain what they did. -/
structure Undisturbed (own own' : Set ℕ) (m m' : Bytes) (Bs Bs' : List Block) : Prop where
  mem : ∀ c ∈ allCells Bs, c.ptr ∉ own → c ∈ allCells Bs'
  free : ∀ c ∈ allCells Bs, c.ptr ∉ own → c.ptr ∉ own'
  old : ∀ c ∈ allCells Bs', c.ptr ∉ own' → c ∈ allCells Bs ∧ c.ptr ∉ own
  bytes : ∀ c ∈ allCells Bs, c.ptr ∉ own → ∀ i < c.req,
    m'.byte (c.ptr + i) = m.byte (c.ptr + i)

/-- The pages `n` from `p` on are used by no block. -/
structure Fresh (Bs : List Block) (p n : ℕ) : Prop where
  bound : p + n * pageBytes ≤ 2 ^ 64
  apart : ∀ b ∈ Bs, p + n * pageBytes ≤ b.addr ∨ b.stop ≤ p

/-- What the heap relies on. `own` are the pointers to the records of the hooks, and
`Good` relates their state to the pages that were handed out. -/
structure Pager (K : Hooks σ) where
  own : σ → Set ℕ
  Good : σ → List (ℕ × ℕ) → Prop
  alloc_spec : ∀ {s s' : Heap σ} {Bs : List Block} {n p : ℕ}, K.alloc n s = (p, s') →
    Holds s Bs → Good s.pager (spans Bs) → own s.pager ⊆ {q | q ∈ (allCells Bs).map Cell.ptr} →
    ∃ Bs', Holds s' Bs' ∧ Pruned Bs' Bs ∧
      Undisturbed (own s.pager) (own s'.pager) s.mem s'.mem Bs Bs' ∧
      own s'.pager ⊆ {q | q ∈ (allCells Bs').map Cell.ptr} ∧
      (p = 0 → Good s'.pager (spans Bs')) ∧
      (p ≠ 0 → Fresh Bs' p n ∧ Good s'.pager (spans Bs' ++ [(p, n)]))
  free_spec : ∀ {s s' : Heap σ} {L R : List Block} {n p : ℕ}, K.free p n s = s' →
    Holds s (L ++ R) → Good s.pager (spans L ++ (p, n) :: spans R) → Fresh (L ++ R) p n →
    own s.pager ⊆ {q | q ∈ (allCells (L ++ R)).map Cell.ptr} →
    ∃ Bs', Holds s' Bs' ∧ (Full (L ++ R) → Full Bs') ∧
      Undisturbed (own s.pager) (own s'.pager) s.mem s'.mem (L ++ R) Bs' ∧
      own s'.pager ⊆ {q | q ∈ (allCells Bs').map Cell.ptr} ∧ Good s'.pager (spans Bs')

/-- The heap and its hooks are in order. -/
structure Sound {K : Hooks σ} (P : Pager K) (s : Heap σ) (Bs : List Block) : Prop where
  holds : Holds s Bs
  good : P.Good s.pager (spans Bs)
  own : P.own s.pager ⊆ {q | q ∈ (allCells Bs).map Cell.ptr}

/-! ## The globals -/

theorem Holds.globals {s s' : Heap σ} {Bs : List Block} (h : Holds s Bs) (hm : s'.mem = s.mem)
    (hroot : s'.memRoot = s.memRoot) (halloc : s'.allocated = s.allocated)
    (hinuse : s'.inuse = s.inuse) (hbet : s'.bestBet = 0 ∨ s'.bestBet ∈ blockAddrs Bs) :
    Holds s' Bs := by
  constructor
  · exact h.apart
  · rw [hroot, h.root]
  · rw [hm]
    exact h.majors
  · rw [hm]
    exact h.records
  · exact hbet
  · rw [halloc, h.allocated]
  · rw [hinuse, h.inuse]

/-! ## A new block -/

/-- The pages that a request takes, if it is not too large for the 32-bit sizes. -/
def maxSize : ℕ := 2 ^ 32 - 4096 - 80

theorem pagesFor_spec {size : ℕ} (h : size ≤ maxSize) :
    size + 80 ≤ pagesFor size * pageBytes ∧ pagesFor size * pageBytes < 2 ^ 32 ∧
      16 ≤ pagesFor size := by
  rw [maxSize] at h
  have hst : (size % 2 ^ 32 + 40) % 2 ^ 32 = size + 40 := by omega
  have hst' : (size + 40 + 40) % 2 ^ 32 = size + 80 := by omega
  simp only [pagesFor, recordSize_eq, pageBytes_eq, pageCount, hst, hst']
  split <;> split <;> omega

/-- A block without cells. -/
def emptyBlock (p n : ℕ) (hpos : 0 < p) (hn : 0 < n) (hsmall : n * pageBytes < 2 ^ 32)
    (hbound : p + n * pageBytes ≤ 2 ^ 64) : Block where
  addr := p
  pages := n
  cells := []
  pos := hpos
  small := hsmall
  bound := hbound
  packed := Nat.add_le_add_left
    ((Nat.le_of_ble_eq_true rfl : recordSize ≤ pageBytes).trans (Nat.le_mul_of_pos_left _ hn)) p

/-- The block `nb` was put behind the one at `p`; `p` is `0` if it is the first. -/
structure Appended (m m' : Bytes) (p : ℕ) (nb : Block) : Prop where
  block : nb.In m'
  prev : Major.prev.get m' nb.addr = p
  next : Major.next.get m' nb.addr = 0
  left : p ≠ 0 → Major.next.get m' p = nb.addr
  frame : ∀ x, ¬ (nb.addr ≤ x ∧ x < nb.addr + 40) → ¬ (p ≠ 0 ∧ p + 8 ≤ x ∧ x < p + 16) →
    m'.byte x = m.byte x

theorem exists_block_last {Bs : List Block} (h : last 0 (blockAddrs Bs) ≠ 0) :
    ∃ b ∈ Bs, b.addr = last 0 (blockAddrs Bs) := by
  have hne : blockAddrs Bs ≠ [] := by
    intro hc
    rw [hc] at h
    exact h rfl
  exact List.mem_map.mp (last_mem 0 hne)

theorem Holds.nodup {s : Heap σ} {Bs : List Block} (h : Holds s Bs) : (blockAddrs Bs).Nodup := by
  rw [List.nodup_iff_pairwise_ne, List.pairwise_map]
  refine h.apart.imp fun {a b} hab hne => ?_
  have ha := a.record_le
  have hb := b.record_le
  rcases hab with hab | hab <;> omega

/-- Two blocks are the same, or they lie apart. -/
theorem Holds.blocks_apart {s : Heap σ} {Bs : List Block} (h : Holds s Bs) {a b : Block}
    (ha : a ∈ Bs) (hb : b ∈ Bs) : a = b ∨ a.Apart b := by
  obtain ⟨L, R, rfl⟩ := List.append_of_mem hb
  rcases mem_middle ha with rfl | ha
  · exact .inl rfl
  · exact .inr (h.apart_of_mem ha)

section
variable {s s' : Heap σ} {Bs : List Block} {nb : Block}

/-- An old block reads what it read before, but for the link of the last one. -/
theorem Appended.byte_old (hA : Appended s.mem s'.mem (last 0 (blockAddrs Bs)) nb)
    (h : Holds s Bs) (hfresh : Fresh Bs nb.addr nb.pages) {b : Block} (hb : b ∈ Bs) {x : ℕ}
    (hx : b.addr ≤ x) (hx' : x < b.stop)
    (hlink : b.addr = last 0 (blockAddrs Bs) → x < b.addr + 8 ∨ b.addr + 16 ≤ x) :
    s'.mem.byte x = s.mem.byte x := by
  have hrec := nb.record_le
  have hstop : nb.stop = nb.addr + nb.pages * pageBytes := rfl
  apply hA.frame
  · rcases hfresh.apart b hb with hap | hap <;> omega
  · rintro ⟨h0, hc⟩
    obtain ⟨e, he, heq⟩ := exists_block_last h0
    have herec := e.record_le
    rcases h.blocks_apart hb he with rfl | hap | hap
    · have := hlink heq
      omega
    · omega
    · omega

/-- The links of the old blocks. -/
theorem Appended.kept (hA : Appended s.mem s'.mem (last 0 (blockAddrs Bs)) nb) (h : Holds s Bs)
    (hfresh : Fresh Bs nb.addr nb.pages) {b : Block} (hb : b ∈ Bs) :
    (b.addr ≠ last 0 (blockAddrs Bs) →
      Major.next.get s'.mem b.addr = Major.next.get s.mem b.addr) ∧
    Major.prev.get s'.mem b.addr = Major.prev.get s.mem b.addr := by
  have hb' := b.record_le
  constructor
  · intro hne
    apply Member.get_congr
    simp only [Major.next]
    intro x hx hx'
    exact hA.byte_old h hfresh hb (by omega) (by omega) fun hc => absurd hc hne
  · apply Member.get_congr
    simp only [Major.prev]
    intro x hx hx'
    exact hA.byte_old h hfresh hb (by omega) (by omega) fun _ => .inl (by omega)

/-- The list is linked through the new block. -/
theorem Appended.linked (hA : Appended s.mem s'.mem (last 0 (blockAddrs Bs)) nb) (h : Holds s Bs)
    (hfresh : Fresh Bs nb.addr nb.pages) :
    Linked (Major.next.get s'.mem) (Major.prev.get s'.mem) 0 (blockAddrs Bs ++ [nb.addr]) 0 := by
  have hlinked := h.majors
  rw [← List.append_nil (blockAddrs Bs)] at hlinked
  refine hlinked.insert (by rw [List.append_nil]; exact h.nodup) ?_ hA.prev hA.next
    (fun hl => hA.left ?_) (fun hr => absurd rfl hr)
  · constructor
    · simpa only [List.forall_mem_map] using fun b hb => (hA.kept h hfresh hb).1
    · simp
    · simpa only [List.forall_mem_map] using fun b hb => (hA.kept h hfresh hb).2
    · simp
  · obtain ⟨b, hb, heq⟩ := List.mem_map.mp (last_mem 0 hl)
    rw [← heq]
    exact b.pos.ne'

/-- **The rule for a new block.** -/
theorem Holds.append (h : Holds s Bs)
    (hfresh : Fresh Bs nb.addr nb.pages) (hcells : nb.cells = [])
    (hA : Appended s.mem s'.mem (last 0 (blockAddrs Bs)) nb)
    (hroot : s'.memRoot = head nb.addr (blockAddrs Bs)) (hbet : s'.bestBet = s.bestBet)
    (halloc : s'.allocated = (s.allocated + nb.pages * pageBytes) % 2 ^ 64)
    (hinuse : s'.inuse = s.inuse) : Holds s' (Bs ++ [nb]) := by
  have hmap : blockAddrs (Bs ++ [nb]) = blockAddrs Bs ++ [nb.addr] := by simp [blockAddrs]
  constructor
  · rw [List.pairwise_append]
    refine ⟨h.apart, List.pairwise_singleton _ _, fun b hb c hc => ?_⟩
    rw [List.mem_singleton.mp hc]
    exact Or.symm (hfresh.apart b hb)
  · rw [hroot, hmap, head_append]
    rfl
  · rw [hmap]
    exact hA.linked h hfresh
  · intro b hb
    rcases List.mem_append.mp hb with hb | hb
    · apply (h.records b hb).congr
      intro x hx hx'
      have hx'' := hx.bounds
      exact hA.byte_old h hfresh hb hx''.1 hx''.2 fun _ => .inr hx'
    · rw [List.mem_singleton.mp hb]
      exact hA.block
  · rw [hbet, hmap]
    exact h.bet.imp_right fun hb => List.mem_append_left _ hb
  · rw [halloc, h.allocated, Nat.mod_add_mod]
    simp [footprint]
  · rw [hinuse, h.inuse]
    simp [handedOut, hcells]

end

/-! ## `allocate_new_page` -/

/-- The record of a new block, before it is linked. -/
theorem majorRecord_appended (m : Bytes) {nb : Block} (hcells : nb.cells = []) :
    Appended m (majorRecord m nb.addr nb.pages) 0 nb := by
  have hsmall := nb.small
  have hpages : nb.pages < 2 ^ 32 := by
    rw [pageBytes_eq] at hsmall
    omega
  simp only [majorRecord]
  constructor
  · constructor
    · simp (disch := decide) only [Member.get_set_of_ne]
      exact Member.get_set_of_lt (lt_width32 _ hpages rfl)
    · simp (disch := decide) only [Member.get_set_of_ne]
      exact Member.get_set_of_lt (lt_width32 _ hsmall rfl)
    · simp (disch := decide) only [Member.get_set_of_ne]
      rw [Block.usage, hcells]
      exact Member.get_set_of_lt (by decide)
    · rw [hcells, Member.get_set_self]
      exact Nat.zero_mod _
    · rw [hcells]
      trivial
    · rw [hcells]
      exact fun c hc => absurd hc List.not_mem_nil
  · simp (disch := decide) only [Member.get_set_of_ne, Member.get_set_self, Nat.zero_mod]
  · simp (disch := decide) only [Member.get_set_of_ne, Member.get_set_self, Nat.zero_mod]
  · exact fun h0 => absurd rfl h0
  · intro x hx _
    simp (disch := omega) only [Member.set_of_apart]

/-- The record of a new block, linked behind the block at `p`. -/
theorem linkedRecord_appended (m : Bytes) {nb : Block} (hcells : nb.cells = []) {p : ℕ}
    (h0 : p ≠ 0) (hp : p < 2 ^ 64) (hap : p + 40 ≤ nb.addr ∨ nb.stop ≤ p) :
    Appended m (Major.prev.set (Major.next.set (majorRecord m nb.addr nb.pages) p nb.addr)
      nb.addr p) p nb := by
  have hA := majorRecord_appended m hcells
  have hrec := nb.record_le
  have hbound : nb.stop ≤ 2 ^ 64 := nb.bound
  -- the links are in the first sixteen bytes of the two records
  have hfield : ∀ f : Member 40, 16 ≤ f.off →
      f.get (Major.prev.set (Major.next.set (majorRecord m nb.addr nb.pages) p nb.addr) nb.addr p)
        nb.addr = f.get (majorRecord m nb.addr nb.pages) nb.addr := by
    intro f hf
    rw [Member.get_set_of_ne (.inr (by simp only [Major.prev]; omega)),
      Member.get_set_of_apart (by omega)]
  constructor
  · constructor
    · rw [hfield _ (by decide), hA.block.pages]
    · rw [hfield _ (by decide), hA.block.size]
    · rw [hfield _ (by decide), hA.block.usage]
    · rw [hfield _ (by decide), hA.block.first]
    · rw [hcells]
      trivial
    · rw [hcells]
      exact fun c hc => absurd hc List.not_mem_nil
  · exact Member.get_set_of_lt (lt_width _ hp rfl)
  · rw [Member.get_set_of_ne (by decide), Member.get_set_of_apart (by omega), hA.next]
  · intro _
    rw [Member.get_set_of_apart (by omega)]
    exact Member.get_set_of_lt (lt_width _ (by omega) rfl)
  · intro x hx hx'
    rw [Member.set_of_apart (by omega),
      Member.set_of_outside (by simp only [Major.next]; omega), hA.frame x hx (by simp)]

theorem Pruned.addrs {Bs Bs' : List Block} (h : Pruned Bs' Bs) :
    blockAddrs Bs' = blockAddrs Bs := by
  induction h with
  | nil => rfl
  | cons hb _ ih => exact congrArg₂ List.cons hb.1 ih

/-- The bytes of a cell that its holder may use. -/
theorem payload_bounds {b : Block} {c : Cell} (hc : c ∈ b.cells) {i : ℕ} (hi : i < c.req) :
    b.addr + 96 ≤ c.ptr + i ∧ c.addr + 56 ≤ c.ptr + i ∧ c.ptr + i < c.addr + c.len ∧
      c.ptr + i < b.stop := by
  have hb := b.cell_bounds hc
  have hp := c.ptr_bounds
  omega

theorem Pruned.refl (Bs : List Block) : Pruned Bs Bs :=
  List.forall₂_same.mpr fun _ _ => ⟨rfl, rfl, List.Sublist.refl _, id⟩

theorem Pruned.full {Bs Bs' : List Block} (h : Pruned Bs' Bs) (hf : Full Bs) : Full Bs' := by
  induction h with
  | nil => exact hf
  | cons hb _ ih =>
      simp only [Full, List.mem_cons, forall_eq_or_imp] at hf ⊢
      exact ⟨hb.2.2.2 hf.1, ih hf.2⟩

theorem Undisturbed.refl (own : Set ℕ) (m : Bytes) (Bs : List Block) :
    Undisturbed own own m m Bs Bs :=
  ⟨fun _ h _ => h, fun _ _ h => h, fun _ h ho => ⟨h, ho⟩, fun _ _ _ _ _ => rfl⟩

theorem Undisturbed.trans {o₁ o₂ o₃ : Set ℕ} {m₁ m₂ m₃ : Bytes} {B₁ B₂ B₃ : List Block}
    (h : Undisturbed o₁ o₂ m₁ m₂ B₁ B₂) (h' : Undisturbed o₂ o₃ m₂ m₃ B₂ B₃) :
    Undisturbed o₁ o₃ m₁ m₃ B₁ B₃ := by
  constructor
  · exact fun c hc ho => h'.mem c (h.mem c hc ho) (h.free c hc ho)
  · exact fun c hc ho => h'.free c (h.mem c hc ho) (h.free c hc ho)
  · intro c hc ho
    obtain ⟨hc', ho'⟩ := h'.old c hc ho
    exact h.old c hc' ho'
  · intro c hc ho i hi
    rw [h'.bytes c (h.mem c hc ho) (h.free c hc ho) i hi, h.bytes c hc ho i hi]

/-- A new block disturbs nothing. -/
theorem Appended.byte_eq {m m' : Bytes} {Bs : List Block} {nb : Block}
    (h : Appended m m' (last 0 (blockAddrs Bs)) nb) (hfresh : Fresh Bs nb.addr nb.pages)
    {s : Heap σ} (hs : Holds s Bs) {c : Cell} (hc : c ∈ allCells Bs) {i : ℕ} (hi : i < c.req) :
    m'.byte (c.ptr + i) = m.byte (c.ptr + i) := by
  have hrec := nb.record_le
  have hstop : nb.stop = nb.addr + nb.pages * pageBytes := rfl
  obtain ⟨b, hb, hcb⟩ := List.mem_flatMap.mp hc
  have hpay := payload_bounds hcb hi
  apply h.frame
  · rcases hfresh.apart b hb with hap | hap <;> omega
  · rintro ⟨h0, hx⟩
    obtain ⟨e, he, heq⟩ := exists_block_last h0
    have herec := e.record_le
    rcases hs.blocks_apart hb he with rfl | hap | hap <;> omega

/-- What a request for pages leaves of the heap and its hooks. -/
structure Grown {K : Hooks σ} (P : Pager K) (s : Heap σ) (Bs : List Block) (size p : ℕ)
    (s' : Heap σ) (Bs' : List Block) : Prop where
  asked : ∃ t, K.alloc (pagesFor size) s = (p, t) ∧ s'.pager = t.pager
  pruned : Pruned Bs' Bs
  undisturbed : Undisturbed (P.own s.pager) (P.own s'.pager) s.mem s'.mem Bs Bs'
  refused : p = 0 → Sound P s' Bs'
  given : p ≠ 0 → ∃ nb : Block, nb.addr = p ∧ nb.pages = pagesFor size ∧ nb.cells = [] ∧
    Sound P s' (Bs' ++ [nb])

section
variable {K : Hooks σ} {P : Pager K} {s : Heap σ} {Bs : List Block} {size : ℕ}

/-- The link of the last block. -/
theorem Holds.last_next (h : Holds s Bs) (hne : Bs ≠ []) :
    Major.next.get s.mem (last 0 (blockAddrs Bs)) = 0 := by
  obtain ⟨L, b, rfl⟩ : ∃ L b, Bs = L ++ [b] :=
    ⟨_, _, (List.dropLast_concat_getLast hne).symm⟩
  have hlinked := h.majors
  rw [blockAddrs, List.map_append] at hlinked ⊢
  rw [last_append]
  exact hlinked.mid.2

variable {s₀ : Heap σ}

/-- The hook gave no pages. -/
theorem allocateNewPage_refused (ha : K.alloc (pagesFor size) s = (0, s₀)) :
    allocateNewPage K size s = (0, { s₀ with warningCount := s₀.warningCount + 1 }) := by
  simp only [allocateNewPage, ha, if_true]

/-- The hook gave pages for the block `nb`. -/
theorem allocateNewPage_given {nb : Block} (ha : K.alloc (pagesFor size) s = (nb.addr, s₀))
    (hpages : nb.pages = pagesFor size) (hcells : nb.cells = []) :
    allocateNewPage K size s = (nb.addr, { s₀ with
      mem := majorRecord s₀.mem nb.addr nb.pages
      allocated := (s₀.allocated + nb.pages * pageBytes) % 2 ^ 64 }) := by
  have hsize := (majorRecord_appended s₀.mem hcells).block.size
  simp only [allocateNewPage, ha, if_neg nb.pos.ne']
  rw [← hpages, hsize]

/-- The block made of pages that the hook gave. -/
theorem exists_emptyBlock {p : ℕ} (h0 : p ≠ 0) (hsize : size ≤ maxSize)
    (hfresh : Fresh Bs p (pagesFor size)) :
    ∃ nb : Block, nb.addr = p ∧ nb.pages = pagesFor size ∧ nb.cells = [] := by
  have hp := pagesFor_spec hsize
  exact ⟨emptyBlock p (pagesFor size) (Nat.pos_of_ne_zero h0) (by omega) hp.2.1 hfresh.bound,
    rfl, rfl, rfl⟩

theorem own_append (Bs : List Block) {nb : Block} (hcells : nb.cells = []) {own : Set ℕ}
    (h : own ⊆ {p | p ∈ (allCells Bs).map Cell.ptr}) :
    own ⊆ {p | p ∈ (allCells (Bs ++ [nb])).map Cell.ptr} := by
  simpa [allCells, hcells] using h

/-- The hook gave pages for a block behind the last one. -/
theorem growAt_given (h : Holds s₀ Bs) (hne : Bs ≠ []) (hsize : size ≤ maxSize) {p : ℕ}
    (ha : K.alloc (pagesFor size) s = (p, s₀)) (h0 : p ≠ 0) (hfresh : Fresh Bs p (pagesFor size)) :
    ∃ nb s', nb.addr = p ∧ nb.pages = pagesFor size ∧ nb.cells = [] ∧
      growAt K size (last 0 (blockAddrs Bs)) s = (p, s') ∧ Holds s' (Bs ++ [nb]) ∧
      s'.pager = s₀.pager ∧ s'.bestBet = s₀.bestBet ∧
      ∀ c ∈ allCells Bs, ∀ i < c.req, s'.mem.byte (c.ptr + i) = s₀.mem.byte (c.ptr + i) := by
  obtain ⟨nb, rfl, hpages, hcells⟩ := exists_emptyBlock h0 hsize hfresh
  rw [← hpages] at hfresh
  have hlast : last 0 (blockAddrs Bs) ∈ blockAddrs Bs :=
    last_mem 0 fun hc => hne (List.map_eq_nil_iff.mp hc)
  obtain ⟨e, he, heq⟩ := List.mem_map.mp hlast
  have herec := e.record_le
  have hebound : e.stop ≤ 2 ^ 64 := e.bound
  have hA := linkedRecord_appended s₀.mem hcells (p := last 0 (blockAddrs Bs))
    (by rw [← heq]; exact e.pos.ne') (by omega)
    (by
      rcases hfresh.apart e he with hap | hap
      · exact .inr (by rw [← heq]; exact hap)
      · exact .inl (by omega))
  refine ⟨nb, { s₀ with
    mem := Major.prev.set (Major.next.set (majorRecord s₀.mem nb.addr nb.pages)
      (last 0 (blockAddrs Bs)) nb.addr) nb.addr (last 0 (blockAddrs Bs))
    allocated := (s₀.allocated + nb.pages * pageBytes) % 2 ^ 64 }, rfl, hpages, hcells, ?_,
    h.append hfresh hcells hA ?_ rfl rfl rfl, rfl, rfl, fun c hc i hi => hA.byte_eq hfresh h hc hi⟩
  · simp only [growAt, allocateNewPage_given ha hpages hcells, if_neg h0]
  · rw [head_eq_of_ne (fun hc => hne (List.map_eq_nil_iff.mp hc)) _ 0]
    exact h.root

/-- The hook gave pages for the first block. -/
theorem allocateNewPage_first (h : Holds s₀ []) (hsize : size ≤ maxSize) {p : ℕ}
    (ha : K.alloc (pagesFor size) s = (p, s₀)) (h0 : p ≠ 0) (hfresh : Fresh [] p (pagesFor size)) :
    ∃ nb s', nb.addr = p ∧ nb.pages = pagesFor size ∧ nb.cells = [] ∧
      allocateNewPage K size s = (p, s') ∧ Holds { s' with memRoot := p } [nb] ∧
      s'.pager = s₀.pager ∧ s'.bestBet = s₀.bestBet := by
  obtain ⟨nb, rfl, hpages, hcells⟩ := exists_emptyBlock h0 hsize hfresh
  rw [← hpages] at hfresh
  exact ⟨nb, _, rfl, hpages, hcells, allocateNewPage_given ha hpages hcells,
    h.append hfresh hcells (majorRecord_appended s₀.mem hcells) rfl rfl rfl rfl, rfl, rfl⟩

/-- **Growing the heap** by a block behind its last one. -/
theorem growAt_spec (h : Sound P s Bs) (hne : Bs ≠ []) (hsize : size ≤ maxSize) {p : ℕ}
    {s' : Heap σ} (hr : growAt K size (last 0 (blockAddrs Bs)) s = (p, s')) :
    ∃ Bs', Grown P s Bs size p s' Bs' := by
  obtain ⟨q, s₀, ha⟩ : ∃ q s₀, K.alloc (pagesFor size) s = (q, s₀) := ⟨_, _, rfl⟩
  obtain ⟨Bs', hholds, hpruned, hund, hown, href, hgiven⟩ := P.alloc_spec ha h.holds h.good h.own
  have hne' : Bs' ≠ [] := by
    rintro rfl
    exact hne (List.map_eq_nil_iff.mp hpruned.addrs.symm)
  rw [← hpruned.addrs] at hr
  by_cases h0 : q = 0
  · subst h0
    have hsame := Member.set_get_self Major.next s₀.mem (last 0 (blockAddrs Bs'))
    rw [hholds.last_next hne'] at hsame
    rw [growAt, allocateNewPage_refused ha] at hr
    simp only [if_true, hsame, Prod.mk.injEq] at hr
    obtain ⟨rfl, rfl⟩ := hr
    refine ⟨Bs', ⟨_, ha, rfl⟩, hpruned, hund, fun _ => ⟨?_, href rfl, hown⟩, fun hc => absurd rfl hc⟩
    exact hholds.globals rfl rfl rfl rfl hholds.bet
  · obtain ⟨hfresh, hgood⟩ := hgiven h0
    obtain ⟨nb, t, haddr, hpages, hcells, hgrow, hnew, hpager, -, hbytes⟩ :=
      growAt_given hholds hne' hsize ha h0 hfresh
    rw [hgrow, Prod.mk.injEq] at hr
    obtain ⟨rfl, rfl⟩ := hr
    refine ⟨Bs', ⟨_, ha, hpager⟩, hpruned, ?_, fun hc => absurd hc h0, fun _ =>
      ⟨nb, haddr, hpages, hcells, hnew, ?_, ?_⟩⟩
    · rw [hpager]
      exact hund.trans ⟨fun c hc _ => hc, fun c _ ho => ho, fun c hc ho => ⟨hc, ho⟩,
        fun c hc _ => hbytes c hc⟩
    · rw [hpager, spans, List.map_append, List.map_singleton, haddr, hpages]
      exact hgood
    · rw [hpager]
      exact own_append _ hcells hown

/-- **The first block** of the heap. -/
theorem firstPage_spec (h : Sound P s []) (hsize : size ≤ maxSize) {p : ℕ} {s' : Heap σ}
    (hr : allocateNewPage K size s = (p, s')) :
    Grown P s [] size p { s' with memRoot := p } [] := by
  obtain ⟨q, s₀, ha⟩ : ∃ q s₀, K.alloc (pagesFor size) s = (q, s₀) := ⟨_, _, rfl⟩
  obtain ⟨Bs', hholds, hpruned, hund, hown, href, hgiven⟩ := P.alloc_spec ha h.holds h.good h.own
  obtain rfl : Bs' = [] := List.forall₂_nil_right_iff.mp hpruned
  have hnil : ∀ m (own : Set ℕ), Undisturbed (P.own s.pager) own s.mem m [] [] := fun m own =>
    ⟨fun c hc => absurd hc List.not_mem_nil, fun c hc => absurd hc List.not_mem_nil,
      fun c hc => absurd hc List.not_mem_nil, fun c hc => absurd hc List.not_mem_nil⟩
  by_cases h0 : q = 0
  · subst h0
    rw [allocateNewPage_refused ha, Prod.mk.injEq] at hr
    obtain ⟨rfl, rfl⟩ := hr
    refine ⟨⟨_, ha, rfl⟩, hpruned, hnil _ _, fun _ => ⟨?_, href rfl, hown⟩, fun hc => absurd rfl hc⟩
    exact hholds.globals rfl hholds.root.symm rfl rfl hholds.bet
  · obtain ⟨hfresh, hgood⟩ := hgiven h0
    obtain ⟨nb, t, haddr, hpages, hcells, hgrow, hnew, hpager, -⟩ :=
      allocateNewPage_first hholds hsize ha h0 hfresh
    rw [hgrow, Prod.mk.injEq] at hr
    obtain ⟨rfl, rfl⟩ := hr
    refine ⟨⟨_, ha, hpager⟩, hpruned, hnil _ _, fun hc => absurd hc h0, fun _ =>
      ⟨nb, haddr, hpages, hcells, hnew, ?_, ?_⟩⟩
    · rw [List.nil_append, spans, List.map_singleton, haddr, hpages]
      exact hpager ▸ hgood
    · exact hpager ▸ own_append [] hcells hown

end

/-! ## A page hook that never uses a page twice -/

namespace Bump

/-- The state of the hook is the number of the next page. -/
def hooks : Hooks ℕ where
  alloc n s :=
    if (s.pager + n) * pageBytes ≤ 2 ^ 64 then
      (s.pager * pageBytes, { s with pager := s.pager + n })
    else (0, s)
  free _ _ s := s

/-- Nothing was handed out from the next page on. -/
def Good (next : ℕ) (runs : List (ℕ × ℕ)) : Prop :=
  0 < next ∧ ∀ r ∈ runs, r.1 + r.2 * pageBytes ≤ next * pageBytes

/-- The hook keeps no record in the heap. -/
def pager : Pager hooks where
  own _ := ∅
  Good := Good
  alloc_spec := by
    intro s s' Bs n p hr hholds hgood hown
    have hpos : s.pager * pageBytes ≠ 0 := Nat.mul_ne_zero hgood.1.ne' (by decide)
    simp only [hooks] at hr
    split at hr
    · rename_i hle
      rw [Nat.add_mul] at hle
      obtain ⟨rfl, rfl⟩ := Prod.mk.inj hr
      refine ⟨Bs, hholds.globals rfl rfl rfl rfl hholds.bet, .refl Bs, .refl _ _ _,
        Set.empty_subset _, fun h0 => absurd h0 hpos, fun _ => ⟨⟨hle, fun b hb => ?_⟩, ?_⟩⟩
      · exact .inr (hgood.2 _ (List.mem_map_of_mem hb))
      · refine ⟨Nat.add_pos_left hgood.1 _, fun r hrun => ?_⟩
        rw [Nat.add_mul]
        rcases List.mem_append.mp hrun with hrun | hrun
        · exact (hgood.2 r hrun).trans (Nat.le_add_right _ _)
        · rw [List.mem_singleton.mp hrun]
    · obtain ⟨rfl, rfl⟩ := Prod.mk.inj hr
      exact ⟨Bs, hholds, .refl Bs, .refl _ _ _, Set.empty_subset _, fun _ => hgood,
        fun h0 => absurd rfl h0⟩
  free_spec := by
    intro s s' L R n p hr hholds hgood hfresh hown
    obtain rfl : s = s' := hr
    refine ⟨L ++ R, hholds, id, .refl _ _ _, Set.empty_subset _, hgood.1, fun r hrun => ?_⟩
    apply hgood.2
    rw [spans, List.map_append] at hrun
    simp only [List.mem_append, List.mem_cons] at hrun ⊢
    tauto

/-- A heap before its first call, and all pages but the first for the hook. -/
def start : Heap ℕ where
  mem := ⟨fun _ => 0⟩
  memRoot := 0
  bestBet := 0
  allocated := 0
  inuse := 0
  warningCount := 0
  errorCount := 0
  possibleOverruns := 0
  pager := 1

end Bump

end Liballoc

end BootableKernel
