import BootableKernel.Heap.Place

/-!
# Where `kmalloc` looks for room

Inside of a block the search takes the first gap that is large enough: before the first
minor, between two of them or behind the last. `searchMinors_spec` says that the walk over the
minors finds the gap that `Arena.firstGap` names, and `placeIn_spec` that the block then holds
the new allocation, or has no gap at all.
-/

namespace BootableKernel

namespace Liballoc

open Arena Links

variable {σ : Type}

namespace Block

theorem record_le (b : Block) : b.addr + 40 ≤ b.stop := b.packed.le

/-- The bytes that the allocator uses are in the block. -/
theorem Reserved.bounds {b : Block} {x : ℕ} (h : b.Reserved x) : b.addr ≤ x ∧ x < b.stop := by
  rcases h with ⟨hx, hx'⟩ | ⟨c, hc, hx, hx'⟩
  · have hle := b.record_le
    rw [recordSize_eq] at hx'
    omega
  · have hb := b.cell_bounds hc
    have hp := c.ptr_bounds
    omega

/-- Placing a cell writes in the block only, and not to its links. -/
theorem Around.touched_bounds {b : Block} {l r : List Cell} {c : Cell} (h : b.Around l r c) {x : ℕ}
    (hx : Touched b.addr (last 0 (cellAddrs l)) (head 0 (cellAddrs r)) c x) :
    b.addr + 24 ≤ x ∧ x < b.stop := by
  have hbase := h.base_le
  have hptr := c.ptr_bounds
  have hnb := h.neighbours
  have hle := b.record_le
  rcases hx with hx | hx | hx | hx | hx
  · omega
  · omega
  · omega
  · obtain ⟨h0, hx⟩ := hx
    obtain ⟨d, hd, heq⟩ := exists_cell_last h0
    have hd' := b.cell_bounds (h.mem (List.mem_append_left r hd))
    rw [Cell.len_eq] at hd'
    omega
  · obtain ⟨h0, hx⟩ := hx
    obtain ⟨d, hd, heq⟩ := exists_cell_head h0
    have hd' := b.cell_bounds (h.mem (List.mem_append_right l hd))
    rw [Cell.len_eq] at hd'
    omega

end Block

/-! ## One block changes -/

theorem mem_middle {α : Type} {L R : List α} {a b : α} (h : a ∈ L ++ b :: R) :
    a = b ∨ a ∈ L ++ R := by
  simp only [List.mem_append, List.mem_cons] at h ⊢
  tauto

theorem mem_middle_of_ne {α : Type} {L R : List α} {a b : α} (h : a ∈ L ++ R) :
    a ∈ L ++ b :: R := by
  simp only [List.mem_append, List.mem_cons] at h ⊢
  tauto

theorem Apart.symm {a b : Block} (h : a.Apart b) : b.Apart a := Or.symm h

/-- The other blocks lie apart from a block in the middle. -/
theorem Holds.apart_of_mem {s : Heap σ} {L R : List Block} {a b : Block}
    (h : Holds s (L ++ b :: R)) (ha : a ∈ L ++ R) : a.Apart b := by
  have hap := h.apart
  rw [List.pairwise_append, List.pairwise_cons] at hap
  rcases List.mem_append.mp ha with ha | ha
  · exact hap.2.2 a ha b List.mem_cons_self
  · exact Apart.symm (hap.2.1.1 a ha)

/-- **The rule for a change inside of one block.** -/
theorem Holds.replace {s s' : Heap σ} {L R : List Block} {b b' : Block}
    (h : Holds s (L ++ b :: R)) (haddr : b'.addr = b.addr) (hpages : b'.pages = b.pages)
    (hin : b'.In s'.mem)
    (hframe : ∀ x, x < b.addr + 16 ∨ b.stop ≤ x → s'.mem.byte x = s.mem.byte x)
    (hroot : s'.memRoot = s.memRoot)
    (hbet : s'.bestBet = 0 ∨ s'.bestBet ∈ blockAddrs (L ++ b :: R))
    (halloc : s'.allocated = s.allocated)
    (hinuse : s'.inuse = handedOut (L ++ b' :: R) % 2 ^ 64) : Holds s' (L ++ b' :: R) := by
  have haddrs : blockAddrs (L ++ b' :: R) = blockAddrs (L ++ b :: R) := by
    simp [blockAddrs, haddr]
  have hstop : b'.stop = b.stop := by rw [Block.stop, Block.stop, haddr, hpages]
  -- the links of the blocks are in their first sixteen bytes
  have hlinks : ∀ (f : Member 40), f.off + f.width ≤ 16 → ∀ a ∈ blockAddrs (L ++ b :: R),
      f.get s'.mem a = f.get s.mem a := by
    intro f hf a ha
    obtain ⟨B, hB, rfl⟩ := List.mem_map.mp ha
    apply Member.get_congr
    intro x hx hx'
    apply hframe
    rcases mem_middle hB with rfl | hB
    · exact .inl (by omega)
    · have hrec := B.record_le
      rcases h.apart_of_mem hB with hap | hap
      · exact .inl (by omega)
      · exact .inr (by omega)
  constructor
  · have hap := h.apart
    simp only [List.pairwise_append, List.pairwise_cons, List.mem_cons, forall_eq_or_imp,
      Block.Apart, haddr, hstop] at hap ⊢
    exact hap
  · rw [hroot, haddrs, h.root]
  · rw [haddrs]
    exact h.majors.congr (hlinks _ (by decide)) (hlinks _ (by decide))
  · intro B hB
    rcases mem_middle hB with rfl | hB'
    · exact hin
    · apply (h.records B (mem_middle_of_ne hB')).congr
      intro x hx _
      have hx' := hx.bounds
      apply hframe
      rcases h.apart_of_mem hB' with hap | hap
      · exact .inl (by omega)
      · exact .inr (by omega)
  · rw [haddrs]
    exact hbet
  · rw [halloc, h.allocated]
    simp [footprint, hpages]
  · exact hinuse

theorem handedOut_insert {L R : List Block} {b : Block} {l r : List Cell} {c : Cell}
    (hg : b.Around l r c) :
    handedOut (L ++ b.insert l r c hg :: R) = handedOut (L ++ b :: R) + c.size := by
  simp only [handedOut, cells_insert, hg.cells, List.map_append, List.map_cons, List.sum_append,
    List.sum_cons]
  omega

/-- The heap after a request was served from one of its blocks. -/
theorem Holds.served {s : Heap σ} {L R : List Block} {b : Block} (h : Holds s (L ++ b :: R))
    {l r : List Cell} {c : Cell} (hg : b.Around l r c) {m : Bytes}
    (hP : Placed s.mem m b.addr (last 0 (cellAddrs l)) (head 0 (cellAddrs r)) c) :
    Holds (served s m c).2 (L ++ b.insert l r c hg :: R) := by
  have hin : b.In s.mem := h.records b (List.mem_append_right L List.mem_cons_self)
  refine h.replace rfl rfl (hin.insert hg hP) (fun x hx => hP.frame x fun ht => ?_) rfl h.bet rfl ?_
  · have hx' := hg.touched_bounds ht
    omega
  · rw [handedOut_insert, ← Nat.mod_add_mod, ← h.inuse]

/-! ## The search in a block -/

/-- What a search in block `b` comes to: the place of the first gap decides. -/
def Outcome (s : Heap σ) (b : Block) (size req : ℕ) :
    Option (List Cell × List Cell) → Option (Option (ℕ × Heap σ)) → Prop
  | none, out => out = some none
  | some (l, r), out => ∃ c m, c.size = size ∧ c.req = req ∧ b.Around l r c ∧
      out = some (some (served s m c)) ∧
      Placed s.mem m b.addr (last 0 (cellAddrs l)) (head 0 (cellAddrs r)) c

section
variable {s : Heap σ} {b : Block} {size req : ℕ}

theorem need_eq (hsmall : size < 2 ^ 32) : need size = size + 40 := by
  rw [need, recordSize_eq]
  omega

/-- The record behind a cell, and what is stored in its own. -/
theorem Block.In.minor (h : b.In s.mem) {l r : List Cell} {d : Cell}
    (hcells : b.cells = l ++ d :: r) :
    Minor.next.get s.mem d.addr = head 0 (cellAddrs r) ∧ Minor.size.get s.mem d.addr = d.size := by
  have hlinked := h.minors
  rw [hcells, cellAddrs, List.map_append, List.map_cons] at hlinked
  refine ⟨hlinked.mid.2, (h.cells d ?_).size⟩
  rw [hcells]
  exact List.mem_append_right l List.mem_cons_self

/-- One turn of the loop over the minors: is there a gap behind this one? -/
theorem searchMinors_succ (hsmall : size < 2 ^ 32) (h : b.In s.mem) {l r : List Cell} {d : Cell}
    (hcells : b.cells = l ++ d :: r) (fuel : ℕ) :
    searchMinors size req b.addr (fuel + 1) d.addr s =
      if d.addr + d.len + (size + 40) ≤ limit Cell.addr b.stop r then
        some (some (if head 0 (cellAddrs r) = 0 then caseEnd size req b.addr d.addr s
          else caseBetween size req b.addr d.addr s))
      else searchMinors size req b.addr fuel (head 0 (cellAddrs r)) s := by
  have hpos := b.pos
  have hbound : b.stop ≤ 2 ^ 64 := b.bound
  have hlen := d.len_eq
  obtain ⟨hnext, hsize⟩ := h.minor hcells
  have hmem : ∀ e ∈ d :: r, e ∈ b.cells := by
    rw [hcells]
    exact fun e he => List.mem_append_right l he
  have hd := b.cell_bounds (hmem d List.mem_cons_self)
  -- the end of the gap, as the code computes it
  have hstop : (if head 0 (cellAddrs r) = 0 then b.addr + Major.size.get s.mem b.addr
      else head 0 (cellAddrs r)) = limit Cell.addr b.stop r ∧
      d.addr + d.len ≤ limit Cell.addr b.stop r ∧ limit Cell.addr b.stop r ≤ b.stop := by
    cases r with
    | nil =>
        refine ⟨?_, hd.2, le_rfl⟩
        rw [h.size]
        rfl
    | cons e r =>
        have he := b.cell_bounds (hmem e (List.mem_cons_of_mem d List.mem_cons_self))
        have hde : d.addr + d.len ≤ e.addr := by
          have hp := b.packed
          rw [hcells] at hp
          exact hp.around.2 e List.mem_cons_self
        refine ⟨if_neg ?_, hde, ?_⟩
        · simp only [cellAddrs, List.map_cons, head_cons]
          omega
        · simp only [limit]
          omega
  obtain ⟨hstop, hlo, hhi⟩ := hstop
  have hdiff : sub64 (sub64 (sub64 (limit Cell.addr b.stop r) d.addr) recordSize) d.size =
      limit Cell.addr b.stop r - (d.addr + d.len) := by
    have h₁ : sub64 (limit Cell.addr b.stop r) d.addr = limit Cell.addr b.stop r - d.addr :=
      sub64_eq (by omega) (by omega)
    rw [recordSize_eq, h₁, sub64_eq (b := 40) (by omega) (by omega),
      sub64_eq (by omega) (by omega)]
    omega
  have hne : d.addr ≠ 0 := by omega
  rw [searchMinors, if_neg hne]
  simp only [hnext, hsize, hstop, hdiff, need_eq hsmall]
  congr 1
  rw [eq_iff_iff]
  omega

/-- A gap behind the cell `d`. -/
theorem found_behind (hreq : req + (alignment + alignment) ≤ size) (hsmall : size < 2 ^ 32)
    (h : b.In s.mem) {l r : List Cell} {d : Cell} (hcells : b.cells = l ++ d :: r)
    (hle : d.addr + d.len + (size + 40) ≤ limit Cell.addr b.stop r) :
    Outcome s b size req (some (l ++ [d], r))
      (some (some (if head 0 (cellAddrs r) = 0 then caseEnd size req b.addr d.addr s
        else caseBetween size req b.addr d.addr s))) := by
  obtain ⟨c, hc, rfl, rfl⟩ : ∃ c : Cell, c.addr = d.addr + d.len ∧ c.size = size ∧
      c.req = req := ⟨⟨d.addr + d.len, size, req, hreq, hsmall⟩, rfl, rfl, rfl⟩
  have hlen := c.len_eq
  have hdlen := d.len_eq
  have hbound : b.stop ≤ 2 ^ 64 := b.bound
  obtain ⟨hnext, hsize⟩ := h.minor hcells
  have hgap : b.Around (l ++ [d]) r c := by
    refine .of_gap (by simp [hcells]) ?_ ?_
    · rw [reach_concat, hc]
    · rw [hlen, hc]
      omega
  have hcb := hgap.base_le
  have hd := b.cell_bounds (c := d) (hgap.mem (by simp))
  have hlast : last 0 (cellAddrs (l ++ [d])) = d.addr := by simp [cellAddrs]
  refine ⟨c, ?_⟩
  rw [hlast]
  cases r with
  | nil =>
      obtain ⟨m, he, hP⟩ := caseEnd_spec (s := s) (by rw [hsize, hc, hdlen]; omega) b.pos hd.1
        (hcb.2.trans hbound)
      exact ⟨m, rfl, rfl, hgap, by rw [← he]; rfl, hP⟩
  | cons e r =>
      have hebound := b.cell_bounds (c := e) (hgap.mem (by simp))
      have helen := e.len_eq
      have hne : e.addr ≠ 0 := by omega
      obtain ⟨m, he, hP⟩ := caseBetween_spec (s := s) (by rw [hsize, hc, hdlen]; omega) b.pos hd.1
        hnext hgap.room (by simp only [cellAddrs, List.map_cons, head_cons]; omega)
      exact ⟨m, rfl, rfl, hgap, by rw [← he]; exact congrArg _ (congrArg _ (if_neg hne)), hP⟩

/-- **The loop over the minors** finds the first gap. -/
theorem searchMinors_spec (hreq : req + (alignment + alignment) ≤ size) (hsmall : size < 2 ^ 32)
    (h : b.In s.mem) (r l : List Cell) (d : Cell) (hcells : b.cells = l ++ d :: r) (fuel : ℕ)
    (hfuel : r.length + 1 < fuel) :
    Outcome s b size req
      ((firstGap Cell.addr Cell.len (size + 40) (d.addr + d.len) r b.stop).map
        fun x => (l ++ d :: x.1, x.2))
      (searchMinors size req b.addr fuel d.addr s) := by
  induction r generalizing l d fuel with
  | nil =>
      obtain ⟨fuel, rfl⟩ : ∃ k, fuel = k + 2 := ⟨fuel - 2, by simp at hfuel; omega⟩
      rw [searchMinors_succ hsmall h hcells, firstGap]
      by_cases hle : d.addr + d.len + (size + 40) ≤ b.stop
      · rw [if_pos hle, if_pos (show _ ≤ limit Cell.addr b.stop [] from hle)]
        exact found_behind hreq hsmall h hcells hle
      · rw [if_neg hle, if_neg (show ¬ _ ≤ limit Cell.addr b.stop [] from hle)]
        rfl
  | cons e r ih =>
      obtain ⟨fuel, rfl⟩ : ∃ k, fuel = k + 1 := ⟨fuel - 1, by omega⟩
      rw [searchMinors_succ hsmall h hcells, firstGap]
      by_cases hle : d.addr + d.len + (size + 40) ≤ e.addr
      · rw [if_pos hle, if_pos (show _ ≤ limit Cell.addr b.stop (e :: r) from hle)]
        exact found_behind hreq hsmall h hcells hle
      · rw [if_neg hle, if_neg (show ¬ _ ≤ limit Cell.addr b.stop (e :: r) from hle)]
        have hcells' : b.cells = (l ++ [d]) ++ e :: r := by simp [hcells]
        have hrec := ih (l ++ [d]) e hcells' fuel (by simp at hfuel; omega)
        simpa [Option.map_map, Function.comp_def] using hrec

/-- The first gap of a block. -/
abbrev Block.gap (b : Block) (size : ℕ) : Option (List Cell × List Cell) :=
  firstGap Cell.addr Cell.len (size + 40) (b.addr + recordSize) b.cells b.stop

/-- A new cell at the start of a block. -/
theorem gap_front (hreq : req + (alignment + alignment) ≤ size) (hsmall : size < 2 ^ 32)
    (hle : b.addr + recordSize + (size + 40) ≤ limit Cell.addr b.stop b.cells) :
    ∃ c : Cell, c.addr = b.addr + 40 ∧ c.size = size ∧ c.req = req ∧ b.Around [] b.cells c := by
  refine ⟨⟨b.addr + 40, size, req, hreq, hsmall⟩, rfl, rfl, rfl, .of_gap rfl rfl ?_⟩
  rw [recordSize_eq] at hle
  simp only [Cell.len_eq]
  omega

/-- **The search in a block** finds its first gap. -/
theorem placeIn_spec (hreq : req + (alignment + alignment) ≤ size) (hsmall : size < 2 ^ 32)
    (h : b.In s.mem) (hroom : b.usage + (size + 40) ≤ b.pages * pageBytes) (fuel : ℕ)
    (hfuel : b.cells.length < fuel) :
    Outcome s b size req (b.gap size) (placeIn size req fuel b.addr s) := by
  have hbound : b.stop ≤ 2 ^ 64 := b.bound
  have hpos := b.pos
  have hfirst := h.first
  rw [placeIn, hfirst, Block.gap]
  cases hcells : b.cells with
  | nil =>
      have hle : b.addr + recordSize + (size + 40) ≤ b.stop := by
        rw [Block.usage, hcells, used_nil] at hroom
        rw [Block.stop]
        omega
      obtain ⟨c, hc, rfl, rfl, hgap⟩ := gap_front (b := b) hreq hsmall (by rw [hcells]; exact hle)
      rw [hcells] at hgap
      obtain ⟨m, he, hP⟩ := caseNew_spec (s := s) hc hpos (hgap.base_le.2.trans hbound)
      have h0 : head 0 (cellAddrs []) = 0 := rfl
      rw [firstGap, if_pos hle, if_pos h0, he]
      exact ⟨c, m, rfl, rfl, hgap, rfl, hP⟩
  | cons d r =>
      have hd := b.cell_bounds (c := d) (by rw [hcells]; exact List.mem_cons_self)
      have hdlen := d.len_eq
      have hne : head 0 (cellAddrs (d :: r)) ≠ 0 := by
        simp only [cellAddrs, List.map_cons, head_cons]
        omega
      have hdiff : sub64 (sub64 (head 0 (cellAddrs (d :: r))) b.addr) recordSize =
          d.addr - (b.addr + recordSize) := by
        simp only [cellAddrs, List.map_cons, head_cons]
        rw [recordSize_eq, sub64_eq (a := d.addr) (by omega) (by omega),
          sub64_eq (by omega) (by omega)]
        omega
      simp only [if_neg hne, hdiff, need_eq hsmall, firstGap]
      by_cases hle : b.addr + recordSize + (size + 40) ≤ d.addr
      · obtain ⟨c, hc, rfl, rfl, hgap⟩ := gap_front (b := b) hreq hsmall
          (by rw [hcells]; exact hle)
        rw [hcells] at hgap
        obtain ⟨m, he, hP⟩ := caseFront_spec (s := s) (n := d.addr) hc hpos
          (by rw [hfirst, hcells]; rfl) hgap.room (by omega)
        rw [if_pos hle, if_pos (by omega), he]
        exact ⟨c, m, rfl, rfl, hgap, rfl, hP⟩
      · rw [if_neg hle, if_neg (by rw [recordSize_eq] at hle ⊢; omega)]
        have hsearch := searchMinors_spec hreq hsmall h r [] d hcells fuel
          (by rw [hcells, List.length_cons] at hfuel; exact hfuel)
        simpa using hsearch

end

end Liballoc

end BootableKernel
