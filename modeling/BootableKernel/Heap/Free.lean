import BootableKernel.Heap.Malloc

/-!
# `kfree`

A pointer leads back to its record through the note of `ALIGN`. The record is taken out of
its block; the block itself goes back to the page hooks when it was the last. A pointer
without the magic number before it is refused, and only the counters change.
-/

namespace BootableKernel

namespace Liballoc

open Arena Links

variable {σ : Type} {K : Hooks σ} {P : Pager K}

/-- **`UNALIGN` undoes `ALIGN`.** -/
theorem unalign_ptr {m : Bytes} {maj : ℕ} {c : Cell} (h : c.In m maj) (hc : c.ptr < 2 ^ 64) :
    unalign m c.ptr = c.addr + 40 := by
  have hskip := alignSkip_bounds (c.addr + recordSize)
  have hptr : c.ptr = c.addr + 40 + alignSkip (c.addr + recordSize) := rfl
  have hsub : sub64 c.ptr alignment = c.ptr - alignment :=
    sub64_eq (by rw [alignment_eq]; omega) (Nat.lt_add_left _ hc)
  have hnote : m.byte (sub64 c.ptr alignment) =
      BitVec.ofNat 8 (alignSkip (c.addr + recordSize)) := by
    rw [hsub, h.note]
  have hext : ((m.byte (sub64 c.ptr alignment)).signExtend 64).toNat =
      alignSkip (c.addr + recordSize) := by
    have hnat : (BitVec.ofNat 8 (alignSkip (c.addr + recordSize))).toNat =
        alignSkip (c.addr + recordSize) := by
      rw [BitVec.toNat_ofNat]
      omega
    rw [hnote, BitVec.signExtend_eq_setWidth_of_msb_false, BitVec.toNat_setWidth, hnat]
    · omega
    · rw [BitVec.msb_eq_false_iff_two_mul_lt, hnat]
      omega
  rw [unalign]
  simp only [hext]
  rw [if_pos (by rw [alignment_eq]; omega), sub64_eq (by omega) (by omega)]
  omega

/-- A pointer leads back to its record. -/
theorem record_of_ptr {m : Bytes} {maj : ℕ} {c : Cell} (h : c.In m maj) (hc : c.ptr < 2 ^ 64) :
    sub64 (unalign m c.ptr) recordSize = c.addr := by
  have hptr := c.ptr_bounds
  rw [unalign_ptr h hc, recordSize_eq, sub64_eq (by omega) (by omega)]
  omega

/-- The minor `c` was taken out from between `p` and `n`. -/
structure Unlinked (m m' : Bytes) (maj p n : ℕ) (c : Cell) : Prop where
  usage : Major.usage.get m' maj = Major.usage.get m maj - c.len
  first : Major.first.get m' maj = if p = 0 then n else Major.first.get m maj
  left : p ≠ 0 → Minor.next.get m' p = n
  right : n ≠ 0 → Minor.prev.get m' n = p
  magic : Minor.magic.get m' c.addr = magicDead
  note : m'.byte (c.ptr - alignment) = m.byte (c.ptr - alignment)
  frame : ∀ x, ¬ Touched maj p n c x → m'.byte x = m.byte x

section
variable {m : Bytes} {maj p n : ℕ} {c : Cell}

/-- The stores of `kfree` that take the minor `c` out from between `p` and `n`. -/
def unlinkStores (m : Bytes) (maj p n : ℕ) (c : Cell) : Bytes :=
  let m := Major.usage.set m maj (Major.usage.get m maj - c.len)
  let m := Minor.magic.set m c.addr magicDead
  let m := if n ≠ 0 then Minor.prev.set m n p else m
  let m := if p ≠ 0 then Minor.next.set m p n else m
  if p = 0 then Major.first.set m maj n else m

/-- What the stores of `kfree` read. -/
theorem unlinkMinor_eq (hin : c.In m maj) (hprev : Minor.prev.get m c.addr = p)
    (hnext : Minor.next.get m c.addr = n) (hmaj : maj + 40 ≤ c.addr) (hp : Neighbour maj p c)
    (hn : Neighbour maj n c) (husage : c.len ≤ Major.usage.get m maj) :
    unlinkMinor m c.addr = unlinkStores m maj p n c := by
  have hlen := c.len_eq
  have hlt := Major.usage.get_lt m maj
  have hsub : sub32 (Major.usage.get m maj) (c.size + recordSize) =
      Major.usage.get m maj - c.len := by
    rw [sub32_eq (by rw [recordSize_eq]; omega) (by rw [← width_usage]; exact hlt),
      recordSize_eq]
    omega
  simp only [Neighbour] at hp hn
  have usage : ∀ (f : Member 40) (v : ℕ), f.get (Major.usage.set m maj v) c.addr = f.get m c.addr :=
    fun f v => Member.get_set_of_apart (by omega)
  simp only [unlinkMinor, unlinkStores, hin.block, hin.size, hsub]
  by_cases hn0 : n = 0 <;> by_cases hp0 : p = 0 <;>
    simp (disch := first | decide | omega) only [usage, hprev, hnext, hn0, hp0,
      Member.get_set_of_ne, Member.get_set_of_apart, ne_eq, not_true_eq_false, not_false_eq_true,
      if_true, if_false]

/-- A byte that none of the stores is to. -/
theorem byte_unlinkStores {x : ℕ} (hx : x < c.addr ∨ c.addr + 40 ≤ x)
    (hu : x < maj + 24 ∨ maj + 28 ≤ x) (hf : p = 0 → x < maj + 32 ∨ maj + 40 ≤ x)
    (hp : p ≠ 0 → x < p + 8 ∨ p + 16 ≤ x) (hn : n ≠ 0 → x < n ∨ n + 8 ≤ x) :
    (unlinkStores m maj p n c).byte x = m.byte x := by
  have usage : ∀ m₁ v, (Major.usage.set m₁ maj v).byte x = m₁.byte x := fun m₁ v =>
    Member.set_of_outside (by simp only [Major.usage]; omega)
  have magic : ∀ m₁ v, (Minor.magic.set m₁ c.addr v).byte x = m₁.byte x := fun m₁ v =>
    Member.set_of_apart hx
  have prev : n ≠ 0 → ∀ m₁ v, (Minor.prev.set m₁ n v).byte x = m₁.byte x := fun _ m₁ v =>
    Member.set_of_outside (by simp only [Minor.prev]; omega)
  have next : p ≠ 0 → ∀ m₁ v, (Minor.next.set m₁ p v).byte x = m₁.byte x := fun _ m₁ v =>
    Member.set_of_outside (by simp only [Minor.next]; omega)
  have first : p = 0 → ∀ m₁ v, (Major.first.set m₁ maj v).byte x = m₁.byte x := fun _ m₁ v =>
    Member.set_of_outside (by simp only [Major.first]; omega)
  by_cases hn0 : n = 0 <;> by_cases hp0 : p = 0 <;>
    simp [unlinkStores, hn0, hp0, usage, magic, prev, next, first]

/-- The block's own fields, the two neighbours there or not. -/
theorem block_unlinkStores (hmaj : maj + 40 ≤ c.addr) (hp : Neighbour maj p c)
    (hn : Neighbour maj n c) (hn' : n < 2 ^ 64) :
    Major.usage.get (unlinkStores m maj p n c) maj = Major.usage.get m maj - c.len ∧
      Major.first.get (unlinkStores m maj p n c) maj =
        if p = 0 then n else Major.first.get m maj := by
  have hlt := Major.usage.get_lt m maj
  have usage : ∀ m₁, Major.usage.get (Major.usage.set m₁ maj (Major.usage.get m maj - c.len)) maj =
      Major.usage.get m maj - c.len := fun m₁ => Member.get_set_of_lt (by omega)
  have first : ∀ m₁, Major.first.get (Major.first.set m₁ maj n) maj = n := fun m₁ =>
    Member.get_set_of_lt (lt_width _ hn' rfl)
  simp only [Neighbour] at hp hn
  constructor
  · by_cases hn0 : n = 0 <;> by_cases hp0 : p = 0 <;>
      simp (disch := first | decide | omega) only [unlinkStores, hn0, hp0, ne_eq, not_true_eq_false,
        not_false_eq_true, if_true, if_false, Member.get_set_of_ne, Member.get_set_of_apart, usage]
  · by_cases hn0 : n = 0 <;> by_cases hp0 : p = 0 <;>
      simp (disch := first | decide | omega) only [unlinkStores, hn0, hp0, ne_eq, not_true_eq_false,
        not_false_eq_true, if_true, if_false, Member.get_set_of_ne, Member.get_set_of_apart, first,
        Member.get_set_self, Nat.zero_mod]

/-- The links of the neighbours, as far as these are there. -/
theorem links_unlinkStores (hn : Neighbour maj n c) (hpn : p = 0 ∨ n = 0 ∨ p + 40 ≤ n)
    (hp' : p < 2 ^ 64) (hn' : n < 2 ^ 64) :
    (p ≠ 0 → Minor.next.get (unlinkStores m maj p n c) p = n) ∧
      (n ≠ 0 → Minor.prev.get (unlinkStores m maj p n c) n = p) := by
  have next : ∀ m₁, Minor.next.get (Minor.next.set m₁ p n) p = n := fun m₁ =>
    Member.get_set_of_lt (lt_width _ hn' rfl)
  have prev : ∀ m₁, Minor.prev.get (Minor.prev.set m₁ n p) n = p := fun m₁ =>
    Member.get_set_of_lt (lt_width _ hp' rfl)
  simp only [Neighbour] at hn
  constructor
  · intro hp0
    by_cases hn0 : n = 0 <;>
      simp (disch := first | decide | omega) only [unlinkStores, hn0, hp0, ne_eq, not_true_eq_false,
        not_false_eq_true, if_true, if_false, next, Member.get_set_self, Nat.zero_mod]
  · intro hn0
    by_cases hp0 : p = 0 <;>
      simp (disch := first | decide | omega) only [unlinkStores, hn0, hp0, ne_eq, not_true_eq_false,
        not_false_eq_true, if_true, if_false, Member.get_set_of_apart, prev, Member.get_set_self,
        Nat.zero_mod]

/-- The minor is marked as dead. -/
theorem magic_unlinkStores (hmaj : maj + 40 ≤ c.addr) (hp : Neighbour maj p c)
    (hn : Neighbour maj n c) : Minor.magic.get (unlinkStores m maj p n c) c.addr = magicDead := by
  have hlen := c.len_eq
  have magic : ∀ m₁, Minor.magic.get (Minor.magic.set m₁ c.addr magicDead) c.addr = magicDead :=
    fun m₁ => Member.get_set_of_lt (by decide)
  simp only [Neighbour] at hp hn
  by_cases hn0 : n = 0 <;> by_cases hp0 : p = 0 <;>
    simp (disch := first | decide | omega) only [unlinkStores, hn0, hp0, ne_eq, not_true_eq_false,
      not_false_eq_true, if_true, if_false, Member.get_set_of_apart, magic]

/-- **Taking a minor out of its block.** -/
theorem unlinkMinor_spec (hin : c.In m maj) (hprev : Minor.prev.get m c.addr = p)
    (hnext : Minor.next.get m c.addr = n) (hmaj : maj + 40 ≤ c.addr) (hp : Neighbour maj p c)
    (hn : Neighbour maj n c) (hpn : p = 0 ∨ n = 0 ∨ p + 40 ≤ n) (hp' : p < 2 ^ 64)
    (hn' : n < 2 ^ 64) (husage : c.len ≤ Major.usage.get m maj) :
    Unlinked m (unlinkMinor m c.addr) maj p n c := by
  rw [unlinkMinor_eq hin hprev hnext hmaj hp hn husage]
  have hlen := c.len_eq
  have hptr := c.ptr_bounds
  obtain ⟨husage', hfirst⟩ := block_unlinkStores (m := m) hmaj hp hn hn'
  obtain ⟨hleft, hright⟩ := links_unlinkStores (m := m) hn hpn hp' hn'
  refine ⟨husage', hfirst, hleft, hright, magic_unlinkStores hmaj hp hn, ?_, fun x hx => ?_⟩
  · simp only [Neighbour] at hp hn
    rw [alignment_eq]
    apply byte_unlinkStores <;> omega
  · rw [Touched] at hx
    apply byte_unlinkStores <;> omega

end

/-! ## The block without the cell -/

theorem sublist_middle {α : Type} (l r : List α) (c : α) : (l ++ r).Sublist (l ++ c :: r) :=
  (List.sublist_cons_self c r).append_left l

/-- The block without the cell `c`. -/
def Block.without (b : Block) (l r : List Cell) (c : Cell) (h : b.cells = l ++ c :: r) : Block :=
  b.keep (l ++ r) (h ▸ sublist_middle l r c)

section
variable {b : Block} {l r : List Cell} {c : Cell} {m m' : Bytes}

section
variable (h : b.cells = l ++ c :: r)

@[simp] theorem addr_without : (b.without l r c h).addr = b.addr := rfl
@[simp] theorem pages_without : (b.without l r c h).pages = b.pages := rfl
@[simp] theorem stop_without : (b.without l r c h).stop = b.stop := rfl
@[simp] theorem cells_without : (b.without l r c h).cells = l ++ r := rfl

end

theorem Block.around (hcells : b.cells = l ++ c :: r) : (b.without l r c hcells).Around l r c :=
  ⟨rfl, hcells ▸ b.packed⟩

theorem usage_without (hcells : b.cells = l ++ c :: r) :
    b.usage = (b.without l r c hcells).usage + c.len := by
  simp only [Block.usage, cells_without, hcells, used_append, used_cons]
  omega

/-- **A block without the cell that was freed.** -/
theorem Block.In.erase (h : b.In m) (hcells : b.cells = l ++ c :: r)
    (hU : Unlinked m m' b.addr (last 0 (cellAddrs l)) (head 0 (cellAddrs r)) c) :
    (b.without l r c hcells).In m' := by
  have ha := b.around hcells
  have hmem : ∀ d ∈ l ++ r, d ∈ b.cells := fun d hd =>
    hcells ▸ (sublist_middle l r c).mem hd
  obtain ⟨hpages, hsize⟩ := ha.major_eq hU.frame
  constructor
  · exact hpages.trans h.pages
  · exact hsize.trans h.size
  · refine hU.usage.trans ?_
    rw [h.usage, usage_without hcells]
    omega
  · refine hU.first.trans ?_
    simp only [cells_without, cellAddrs, List.map_append, head_append]
    cases l with
    | nil => rfl
    | cons d l =>
        rw [if_neg (fun h0 => List.cons_ne_nil d l ((last_cellAddrs_eq_zero ha).mp h0)), h.first,
          hcells]
        rfl
  · have hnodup := b.nodup_cellAddrs
    have hlinked := h.minors
    simp only [hcells, cellAddrs, List.map_append, List.map_cons] at hnodup hlinked
    simp only [cells_without, cellAddrs, List.map_append]
    refine hlinked.erase hnodup (ha.kept hU.frame) (fun hl => hU.left ?_) (fun hr => hU.right ?_)
    · exact fun h0 => hl (by rw [(last_cellAddrs_eq_zero ha).mp h0]; rfl)
    · exact fun h0 => hr (by rw [(head_cellAddrs_eq_zero ha).mp h0]; rfl)
  · exact fun d hd => ha.cell_in hU.frame hd (h.cells d (hmem d hd))

/-- The neighbours of a cell in its block. -/
theorem Block.Around.last_bounds (h : b.Around l r c) :
    last 0 (cellAddrs l) = 0 ∨
      b.addr + 40 ≤ last 0 (cellAddrs l) ∧ last 0 (cellAddrs l) + 40 ≤ c.addr := by
  by_cases h0 : last 0 (cellAddrs l) = 0
  · exact .inl h0
  · obtain ⟨d, hd, heq⟩ := exists_cell_last h0
    have hb := b.cell_bounds (h.mem (List.mem_append_left r hd))
    have hap := h.packed.around.1 d hd
    rw [Cell.len_eq] at hap
    exact .inr ⟨by omega, by omega⟩

@[inherit_doc Block.Around.last_bounds]
theorem Block.Around.head_bounds (h : b.Around l r c) :
    head 0 (cellAddrs r) = 0 ∨
      c.addr + c.len ≤ head 0 (cellAddrs r) ∧ head 0 (cellAddrs r) + 40 ≤ b.stop := by
  by_cases h0 : head 0 (cellAddrs r) = 0
  · exact .inl h0
  · obtain ⟨d, hd, heq⟩ := exists_cell_head h0
    have hb := b.cell_bounds (h.mem (List.mem_append_right l hd))
    have hap := h.packed.around.2 d hd
    rw [Cell.len_eq d] at hb
    exact .inr ⟨by omega, by omega⟩

/-- A cell of a block that is in memory is unlinked as it should be. -/
theorem Block.In.unlink (h : b.In m) (hcells : b.cells = l ++ c :: r) :
    Unlinked m (unlinkMinor m c.addr) b.addr (last 0 (cellAddrs l)) (head 0 (cellAddrs r)) c := by
  have ha := b.around hcells
  have hc : c ∈ b.cells := hcells ▸ List.mem_append_right l List.mem_cons_self
  have hbound : b.stop ≤ 2 ^ 64 := b.bound
  have hlinked := h.minors
  rw [hcells, cellAddrs, List.map_append, List.map_cons] at hlinked
  have hcb := b.cell_bounds hc
  have hlen := c.len_eq
  have hlast : last 0 (cellAddrs l) = 0 ∨
      b.addr + 40 ≤ last 0 (cellAddrs l) ∧ last 0 (cellAddrs l) + 40 ≤ c.addr := ha.last_bounds
  have hhead : head 0 (cellAddrs r) = 0 ∨
      c.addr + c.len ≤ head 0 (cellAddrs r) ∧ head 0 (cellAddrs r) + 40 ≤ b.stop := ha.head_bounds
  refine unlinkMinor_spec (h.cells c hc) hlinked.mid.1 hlinked.mid.2 hcb.1 ?_ ?_ ?_ ?_ ?_ ?_
  · rw [Neighbour]
    omega
  · rw [Neighbour]
    omega
  · omega
  · omega
  · omega
  · rw [h.usage, usage_without hcells]
    omega

end

/-! ## A block that is given back -/

theorem exists_block_head {Bs : List Block} (h : head 0 (blockAddrs Bs) ≠ 0) :
    ∃ b ∈ Bs, b.addr = head 0 (blockAddrs Bs) := by
  have hne : blockAddrs Bs ≠ [] := by
    intro hc
    rw [hc] at h
    exact h rfl
  exact List.mem_map.mp (head_mem 0 hne)

/-- In `m'` the links lead from the blocks `L` to the blocks `R`, past the one in between, and
nothing else of these blocks has changed. -/
structure Bypassed (m m' : Bytes) (L R : List Block) : Prop where
  left : last 0 (blockAddrs L) ≠ 0 →
    Major.next.get m' (last 0 (blockAddrs L)) = head 0 (blockAddrs R)
  right : head 0 (blockAddrs R) ≠ 0 →
    Major.prev.get m' (head 0 (blockAddrs R)) = last 0 (blockAddrs L)
  frame : ∀ a ∈ L ++ R, ∀ x, a.addr ≤ x → x < a.stop →
    (a.addr = last 0 (blockAddrs L) → x < a.addr + 8 ∨ a.addr + 16 ≤ x) →
    (a.addr = head 0 (blockAddrs R) → a.addr + 8 ≤ x) → m'.byte x = m.byte x

section
variable {s : Heap σ} {L R : List Block} {b : Block} {m' : Bytes}

/-- A block that is not the last before the gap keeps its link to the next one. -/
theorem Bypassed.next (hm : Bypassed s.mem m' L R) {a : Block} (ha : a ∈ L ++ R)
    (hne : a.addr ≠ last 0 (blockAddrs L)) :
    Major.next.get m' a.addr = Major.next.get s.mem a.addr := by
  have harec := a.record_le
  apply Member.get_congr
  simp only [Major.next]
  intro x hx hx'
  exact hm.frame a ha x (by omega) (by omega) (fun hc => absurd hc hne) fun _ => hx

/-- A block that is not the first behind the gap keeps its link to the one before. -/
theorem Bypassed.prev (hm : Bypassed s.mem m' L R) {a : Block} (ha : a ∈ L ++ R)
    (hne : a.addr ≠ head 0 (blockAddrs R)) :
    Major.prev.get m' a.addr = Major.prev.get s.mem a.addr := by
  have harec := a.record_le
  apply Member.get_congr
  simp only [Major.prev]
  intro x hx hx'
  exact hm.frame a ha x (by omega) (by omega) (fun _ => .inl (by omega)) fun hc => absurd hc hne

/-- The list without `b`. -/
theorem Bypassed.linked (hm : Bypassed s.mem m' L R) (h : Holds s (L ++ b :: R)) :
    Linked (Major.next.get m') (Major.prev.get m') 0 (blockAddrs (L ++ R)) 0 := by
  have hnodup := h.nodup
  have hlinked := h.majors
  rw [blockAddrs, List.map_append, List.map_cons] at hnodup hlinked
  have hcross : ∀ a ∈ L, ∀ e ∈ R, a.addr ≠ e.addr := fun a ha e he =>
    (List.nodup_append.mp hnodup).2.2 _ (List.mem_map_of_mem ha) _
      (List.mem_cons_of_mem _ (List.mem_map_of_mem he))
  rw [blockAddrs, List.map_append]
  refine hlinked.erase hnodup ?_ (fun hl => hm.left ?_) (fun hr => hm.right ?_)
  · constructor
    · simp only [List.forall_mem_map]
      exact fun a ha => hm.next (List.mem_append_left R ha)
    · simp only [List.forall_mem_map]
      intro a ha
      apply hm.next (List.mem_append_right L ha)
      intro heq
      obtain ⟨e, he, heq'⟩ := exists_block_last (heq ▸ a.pos.ne')
      exact hcross e he a ha (heq'.trans heq.symm)
    · simp only [List.forall_mem_map]
      intro a ha
      apply hm.prev (List.mem_append_left R ha)
      intro heq
      obtain ⟨e, he, heq'⟩ := exists_block_head (heq ▸ a.pos.ne')
      exact hcross a ha e he (heq.trans heq'.symm)
    · simp only [List.forall_mem_map]
      exact fun a ha => hm.prev (List.mem_append_right L ha)
  · obtain ⟨a, ha, heq⟩ := List.mem_map.mp (last_mem 0 hl)
    rw [← heq]
    exact a.pos.ne'
  · obtain ⟨a, ha, heq⟩ := List.mem_map.mp (head_mem 0 hr)
    rw [← heq]
    exact a.pos.ne'

/-- **The rule for a block that goes.** -/
theorem Holds.remove {s' : Heap σ} (h : Holds s (L ++ b :: R)) (hm : Bypassed s.mem s'.mem L R)
    (hroot : s'.memRoot = head 0 (blockAddrs (L ++ R)))
    (hbet : s'.bestBet = 0 ∨ s'.bestBet ∈ blockAddrs (L ++ R))
    (halloc : s'.allocated = footprint (L ++ R) % 2 ^ 64)
    (hinuse : s'.inuse = handedOut (L ++ R) % 2 ^ 64) : Holds s' (L ++ R) := by
  refine ⟨h.apart.sublist (sublist_middle L R b), hroot, hm.linked h, fun a ha => ?_, hbet, halloc,
    hinuse⟩
  apply (h.records a (mem_middle_of_ne ha)).congr
  intro x hx hx'
  have hb := hx.bounds
  exact hm.frame a ha x hb.1 hb.2 (fun _ => .inr hx') fun _ => by omega

end

/-- The stores that take a block out of the list. -/
def unlinkMajor (m : Bytes) (p n : ℕ) : Bytes :=
  let m := if p ≠ 0 then Major.next.set m p n else m
  if n ≠ 0 then Major.prev.set m n p else m

section
variable {m : Bytes} {maj p n : ℕ}

/-- The record at `p`, if there is one, lies apart from that at `maj`. -/
def Clear (maj p : ℕ) : Prop := p = 0 ∨ p + 40 ≤ maj ∨ maj + 40 ≤ p

/-- Every other record keeps its fields. -/
theorem get_unlinkMajor (hp : Clear maj p) (hn : Clear maj n) (f : Member 40) :
    f.get (unlinkMajor m p n) maj = f.get m maj := by
  simp only [Clear] at hp hn
  by_cases hp0 : p = 0 <;> by_cases hn0 : n = 0 <;>
    simp (disch := omega) only [unlinkMajor, hp0, hn0, ne_eq, not_true_eq_false, not_false_eq_true,
      if_true, if_false, Member.get_set_of_apart]

/-- `releaseMajor`, with what it reads filled in. -/
theorem releaseMajor_eq (K : Hooks σ) {s : Heap σ} (hprev : Major.prev.get s.mem maj = p)
    (hnext : Major.next.get s.mem maj = n) (hp : Clear maj p) (hn : Clear maj n) :
    releaseMajor K maj s = K.free maj (Major.pages.get s.mem maj) { s with
      mem := unlinkMajor s.mem p n
      memRoot := if s.memRoot = maj then n else s.memRoot
      bestBet := if s.bestBet = maj then 0 else s.bestBet
      allocated := sub64 s.allocated (Major.size.get s.mem maj) } := by
  have hkeep : ∀ f : Member 40, f.get (if p ≠ 0 then Major.next.set s.mem p n else s.mem) maj =
      f.get s.mem maj := by
    intro f
    simp only [Clear] at hp
    by_cases hp0 : p = 0 <;>
      simp (disch := omega) only [hp0, ne_eq, not_true_eq_false, not_false_eq_true, if_true, if_false,
        Member.get_set_of_apart]
  have hsize := get_unlinkMajor (m := s.mem) hp hn Major.size
  have hpages := get_unlinkMajor (m := s.mem) hp hn Major.pages
  simp only [unlinkMajor] at hsize hpages
  simp only [releaseMajor, hprev, hnext, hkeep, hsize, hpages, unlinkMajor]

/-- The links of the neighbours, and what is not a link of theirs. -/
theorem unlinkMajor_spec (hpn : p = 0 ∨ n = 0 ∨ p + 40 ≤ n ∨ n + 40 ≤ p) (hp : p < 2 ^ 64)
    (hn : n < 2 ^ 64) :
    (p ≠ 0 → Major.next.get (unlinkMajor m p n) p = n) ∧
      (n ≠ 0 → Major.prev.get (unlinkMajor m p n) n = p) ∧
      ∀ x, ¬ (p ≠ 0 ∧ p + 8 ≤ x ∧ x < p + 16) → ¬ (n ≠ 0 ∧ n ≤ x ∧ x < n + 8) →
        (unlinkMajor m p n).byte x = m.byte x := by
  refine ⟨fun hp0 => ?_, fun hn0 => ?_, fun x hx hx' => ?_⟩
  · have hself : ∀ m₁, Major.next.get (Major.next.set m₁ p n) p = n := fun m₁ =>
      Member.get_set_of_lt (lt_width _ hn rfl)
    by_cases hn0 : n = 0
    · simp only [unlinkMajor, hp0, hn0, ne_eq, not_true_eq_false, not_false_eq_true, if_true,
        if_false, Member.get_set_self, Nat.zero_mod]
    · simp (disch := omega) only [unlinkMajor, hp0, hn0, ne_eq, not_false_eq_true, if_true,
        Member.get_set_of_apart, hself]
  · have hself : ∀ m₁, Major.prev.get (Major.prev.set m₁ n p) n = p := fun m₁ =>
      Member.get_set_of_lt (lt_width _ hp rfl)
    simp only [unlinkMajor, hn0, ne_eq, not_false_eq_true, if_true, hself]
  · have h₁ : p ≠ 0 → ∀ m₁ v, (Major.next.set m₁ p v).byte x = m₁.byte x := fun _ m₁ v =>
      Member.set_of_outside (by simp only [Major.next]; omega)
    have h₂ : n ≠ 0 → ∀ m₁ v, (Major.prev.set m₁ n v).byte x = m₁.byte x := fun _ m₁ v =>
      Member.set_of_outside (by simp only [Major.prev]; omega)
    by_cases hp0 : p = 0 <;> by_cases hn0 : n = 0 <;> simp [unlinkMajor, hp0, hn0, h₁, h₂]

end

section
variable {s : Heap σ} {L R : List Block} {b : Block}

theorem Holds.clear (h : Holds s (L ++ b :: R)) {p : ℕ} (hp : p ≠ 0 → ∃ a ∈ L ++ R, a.addr = p) :
    Clear b.addr p ∧ p < 2 ^ 64 := by
  by_cases h0 : p = 0
  · exact ⟨.inl h0, by omega⟩
  · obtain ⟨a, ha, rfl⟩ := hp h0
    have harec := a.record_le
    have hbrec := b.record_le
    have habound : a.stop ≤ 2 ^ 64 := a.bound
    refine ⟨.inr ?_, by omega⟩
    rcases h.apart_of_mem ha with hap | hap
    · exact .inl (by omega)
    · exact .inr (by omega)

theorem exists_beside_last (h0 : last 0 (blockAddrs L) ≠ 0) :
    ∃ a ∈ L ++ R, a.addr = last 0 (blockAddrs L) := by
  obtain ⟨a, ha, heq⟩ := exists_block_last h0
  exact ⟨a, List.mem_append_left R ha, heq⟩

theorem exists_beside_head (h0 : head 0 (blockAddrs R) ≠ 0) :
    ∃ a ∈ L ++ R, a.addr = head 0 (blockAddrs R) := by
  obtain ⟨a, ha, heq⟩ := exists_block_head h0
  exact ⟨a, List.mem_append_right L ha, heq⟩

/-- The records of the two neighbours do not overlap. -/
theorem Holds.beside_apart (h : Holds s (L ++ b :: R)) :
    last 0 (blockAddrs L) = 0 ∨ head 0 (blockAddrs R) = 0 ∨
      last 0 (blockAddrs L) + 40 ≤ head 0 (blockAddrs R) ∨
      head 0 (blockAddrs R) + 40 ≤ last 0 (blockAddrs L) := by
  by_cases h₁ : last 0 (blockAddrs L) = 0
  · exact .inl h₁
  by_cases h₂ : head 0 (blockAddrs R) = 0
  · exact .inr (.inl h₂)
  obtain ⟨a, ha, ha'⟩ := exists_block_last h₁
  obtain ⟨e, he, he'⟩ := exists_block_head h₂
  have harec := a.record_le
  have herec := e.record_le
  rcases (List.pairwise_append.mp h.apart).2.2 a ha e (List.mem_cons_of_mem b he) with hap | hap
  · exact .inr (.inr (.inl (by omega)))
  · exact .inr (.inr (.inr (by omega)))

/-- Two of the other blocks are one, or share no byte. -/
theorem Holds.others_apart (h : Holds s (L ++ b :: R)) {a e : Block} (ha : a ∈ L ++ R)
    (he : e ∈ L ++ R) : a = e ∨ a.Apart e :=
  h.blocks_apart (mem_middle_of_ne ha) (mem_middle_of_ne he)

/-- A byte of another block that is not one of the two links. -/
theorem Holds.byte_unlinkMajor (h : Holds s (L ++ b :: R)) {a : Block} (ha : a ∈ L ++ R) {x : ℕ}
    (hx : a.addr ≤ x) (hx' : x < a.stop)
    (hlast : a.addr = last 0 (blockAddrs L) → x < a.addr + 8 ∨ a.addr + 16 ≤ x)
    (hhead : a.addr = head 0 (blockAddrs R) → a.addr + 8 ≤ x) {m' : Bytes}
    (hbytes : ∀ x, ¬ (last 0 (blockAddrs L) ≠ 0 ∧ last 0 (blockAddrs L) + 8 ≤ x ∧
        x < last 0 (blockAddrs L) + 16) →
      ¬ (head 0 (blockAddrs R) ≠ 0 ∧ head 0 (blockAddrs R) ≤ x ∧ x < head 0 (blockAddrs R) + 8) →
      m'.byte x = s.mem.byte x) : m'.byte x = s.mem.byte x := by
  apply hbytes
  · rintro ⟨h0, hc⟩
    obtain ⟨e, he, heq⟩ := exists_beside_last (R := R) h0
    have herec := e.record_le
    rcases h.others_apart ha he with rfl | hap | hap
    · have := hlast heq
      omega
    · omega
    · omega
  · rintro ⟨h0, hc⟩
    obtain ⟨e, he, heq⟩ := exists_beside_head (L := L) h0
    have herec := e.record_le
    rcases h.others_apart ha he with rfl | hap | hap
    · have := hhead heq
      omega
    · omega
    · omega

/-- The root of the list without `b`. -/
theorem Holds.root_without (h : Holds s (L ++ b :: R)) :
    (if s.memRoot = b.addr then head 0 (blockAddrs R) else s.memRoot) =
      head 0 (blockAddrs (L ++ R)) := by
  cases L with
  | nil => exact if_pos h.root
  | cons a L =>
      have hne : s.memRoot ≠ b.addr := by
        have hnodup := h.nodup
        rw [h.root]
        simp only [blockAddrs, List.cons_append, List.map_cons, List.map_append, List.nodup_cons,
          List.mem_append, List.mem_cons, not_or] at hnodup
        exact hnodup.1.2.1
      exact (if_neg hne).trans h.root

/-- The best bet is forgotten if it is `b`. -/
theorem Holds.bet_without (h : Holds s (L ++ b :: R)) :
    (if s.bestBet = b.addr then 0 else s.bestBet) = 0 ∨
      (if s.bestBet = b.addr then 0 else s.bestBet) ∈ blockAddrs (L ++ R) := by
  by_cases hb : s.bestBet = b.addr
  · exact .inl (if_pos hb)
  · refine h.bet.imp (fun h0 => (if_neg hb).trans h0) fun hmem => ?_
    obtain ⟨a, ha, heq⟩ := List.mem_map.mp hmem
    rcases mem_middle ha with rfl | ha
    · exact absurd heq.symm hb
    · exact List.mem_map.mpr ⟨a, ha, heq.trans (if_neg hb).symm⟩

theorem footprint_middle (L R : List Block) (b : Block) :
    footprint (L ++ b :: R) = footprint (L ++ R) + b.pages * pageBytes := by
  simp only [footprint, List.map_append, List.map_cons, List.sum_append, List.sum_cons]
  omega

/-- **An empty block goes back to the page hook**, and the rest of the heap is in order. -/
theorem releaseMajor_spec (K : Hooks σ) (h : Holds s (L ++ b :: R)) (hcells : b.cells = []) :
    ∃ s', releaseMajor K b.addr s = K.free b.addr b.pages s' ∧ Holds s' (L ++ R) ∧
      s'.pager = s.pager ∧
      ∀ x, (∀ a ∈ L ++ R, x < a.addr ∨ a.addr + 16 ≤ x) → s'.mem.byte x = s.mem.byte x := by
  have hin : b.In s.mem := h.records b (List.mem_append_right L List.mem_cons_self)
  have hlinked := h.majors
  rw [blockAddrs, List.map_append, List.map_cons] at hlinked
  obtain ⟨hprev, hnext⟩ := hlinked.mid
  obtain ⟨hp, hp'⟩ := h.clear exists_beside_last
  obtain ⟨hn, hn'⟩ := h.clear exists_beside_head
  obtain ⟨hleft, hright, hbytes⟩ := unlinkMajor_spec (m := s.mem) h.beside_apart hp' hn'
  rw [releaseMajor_eq K hprev hnext hp hn, hin.pages]
  have hm : Bypassed s.mem (unlinkMajor s.mem (last 0 (blockAddrs L)) (head 0 (blockAddrs R))) L R :=
    ⟨hleft, hright, fun a ha x hx hx' hl hr => h.byte_unlinkMajor ha hx hx' hl hr hbytes⟩
  refine ⟨_, rfl, h.remove hm h.root_without h.bet_without ?_ ?_, rfl, ?_⟩
  · have hsmall := b.small
    have halloc := h.allocated
    rw [footprint_middle] at halloc
    simp only [hin.size, halloc, sub64]
    omega
  · have hsum : handedOut (L ++ b :: R) = handedOut (L ++ R) := by
      simp [handedOut, hcells]
    rw [← hsum]
    exact h.inuse
  · intro x hx
    apply hbytes
    · rintro ⟨h0, hc⟩
      obtain ⟨a, ha, heq⟩ := exists_beside_last (R := R) h0
      have := hx a ha
      omega
    · rintro ⟨h0, hc⟩
      obtain ⟨a, ha, heq⟩ := exists_beside_head (L := L) h0
      have := hx a ha
      omega

end

/-! ## The whole call -/

section
variable {s : Heap σ} {L R : List Block} {b : Block} {l r : List Cell} {c : Cell}

theorem mem_allCells_without (hcells : b.cells = l ++ c :: r) {d : Cell} :
    d ∈ allCells (L ++ b :: R) ↔ d = c ∨ d ∈ allCells (L ++ b.without l r c hcells :: R) := by
  simp only [allCells, List.flatMap_append, List.flatMap_cons, cells_without, hcells,
    List.mem_append, List.mem_cons]
  tauto

/-- The state after the record of `c` was taken out of its block, in memory that became
`m`. -/
abbrev released (s : Heap σ) (m : Bytes) (c : Cell) : Heap σ :=
  { s with inuse := sub64 s.inuse c.size, mem := m }

theorem Holds.released (h : Holds s (L ++ b :: R)) (hcells : b.cells = l ++ c :: r) {m : Bytes}
    (hU : Unlinked s.mem m b.addr (last 0 (cellAddrs l)) (head 0 (cellAddrs r)) c) :
    Holds (released s m c) (L ++ b.without l r c hcells :: R) := by
  have hin : b.In s.mem := h.records b (List.mem_append_right L List.mem_cons_self)
  refine h.replace rfl rfl (hin.erase hcells hU) (fun x hx => hU.frame x fun ht => ?_) rfl h.bet rfl
    ?_
  · have hx' := (b.around hcells).touched_bounds ht
    rw [addr_without, stop_without] at hx'
    omega
  · have hsum : handedOut (L ++ b :: R) =
        handedOut (L ++ b.without l r c hcells :: R) + c.size := by
      simp only [handedOut, cells_without, hcells, List.map_append, List.map_cons, List.sum_append,
        List.sum_cons]
      omega
    have hinuse := h.inuse
    have hsmall := c.small
    rw [hsum] at hinuse
    simp only [hinuse, sub64]
    omega

/-- What `kfree` does, from the record of the cell on. -/
theorem kfree_eq (K : Hooks σ) (h : Holds s (L ++ b :: R)) (hcells : b.cells = l ++ c :: r) :
    ∃ m, Unlinked s.mem m b.addr (last 0 (cellAddrs l)) (head 0 (cellAddrs r)) c ∧
      kfree K c.ptr s = if l ++ r = [] then releaseMajor K b.addr (released s m c)
        else reconsider b.addr (released s m c) := by
  have hin : b.In s.mem := h.records b (List.mem_append_right L List.mem_cons_self)
  have hc : c ∈ b.cells := hcells ▸ List.mem_append_right l List.mem_cons_self
  have hcb := b.cell_bounds hc
  have hptr := c.ptr_bounds
  have hbound : b.stop ≤ 2 ^ 64 := b.bound
  have hlen := c.len_eq
  have hcin := hin.cells c hc
  have hroom := c.room_le
  have hlt := c.ptr_lt
  have hmin := record_of_ptr hcin (by omega)
  have hU := hin.unlink hcells
  obtain ⟨m, hm⟩ : ∃ m, unlinkMinor s.mem c.addr = m := ⟨_, rfl⟩
  rw [hm] at hU
  have hfirst : Major.first.get m b.addr = head 0 (cellAddrs (l ++ r)) := (hin.erase hcells hU).first
  have hzero : head 0 (cellAddrs (l ++ r)) = 0 ↔ l ++ r = [] := by
    constructor
    · intro h0
      by_contra hne
      obtain ⟨d, rest, heq⟩ := List.exists_cons_of_ne_nil hne
      rw [heq] at h0
      have hd := b.cell_bounds (c := d)
        (hcells ▸ (sublist_middle l r c).mem (by rw [heq]; exact List.mem_cons_self))
      simp only [cellAddrs, List.map_cons, head_cons] at h0
      omega
    · intro hnil
      rw [hnil]
      rfl
  refine ⟨m, hU, ?_⟩
  rw [kfree, if_neg (by omega)]
  simp only [hmin, hcin.magic, ne_eq, not_true_eq_false, if_false, hcin.block, hcin.size, hm, hfirst,
    hzero]

/-- Another cell keeps what it contains when `c` is unlinked. -/
theorem Holds.bytes_released (h : Holds s (L ++ b :: R)) (hcells : b.cells = l ++ c :: r)
    {m : Bytes} (hU : Unlinked s.mem m b.addr (last 0 (cellAddrs l)) (head 0 (cellAddrs r)) c)
    {d : Cell} (hd : d ∈ allCells (L ++ b.without l r c hcells :: R)) {i : ℕ} (hi : i < d.req) :
    m.byte (d.ptr + i) = s.mem.byte (d.ptr + i) := by
  have ha := b.around hcells
  have hp := d.ptr_bounds
  obtain ⟨hside, -⟩ := (h.released hcells hU).apart_new ha hd
  rcases hside with hd' | hd'
  · exact ha.byte_eq hU.frame hd' (by omega) (by omega)
  · apply hU.frame
    intro ht
    have hx := ha.touched_bounds ht
    omega

theorem Holds.ptr_ne_without (h : Holds s (L ++ b :: R)) (hcells : b.cells = l ++ c :: r)
    {m : Bytes} (hU : Unlinked s.mem m b.addr (last 0 (cellAddrs l)) (head 0 (cellAddrs r)) c)
    {d : Cell} (hd : d ∈ allCells (L ++ b.without l r c hcells :: R)) : d.ptr ≠ c.ptr :=
  (h.released hcells hU).ptr_ne (b.around hcells) hd

/-- The heap and its hooks, right after the record of `c` was taken out. -/
theorem Sound.released (h : Sound P s (L ++ b :: R)) (hcells : b.cells = l ++ c :: r) {m : Bytes}
    (hU : Unlinked s.mem m b.addr (last 0 (cellAddrs l)) (head 0 (cellAddrs r)) c)
    (hown : c.ptr ∉ P.own s.pager) :
    Sound P (released s m c) (L ++ b.without l r c hcells :: R) ∧
      Undisturbed (P.own s.pager ∪ {c.ptr}) (P.own s.pager) s.mem m (L ++ b :: R)
        (L ++ b.without l r c hcells :: R) := by
  have hmem : ∀ d ∈ allCells (L ++ b :: R), d.ptr ≠ c.ptr →
      d ∈ allCells (L ++ b.without l r c hcells :: R) := by
    intro d hd hne
    refine ((mem_allCells_without hcells).mp hd).resolve_left ?_
    rintro rfl
    exact hne rfl
  refine ⟨⟨h.holds.released hcells hU, ?_, fun q hq => ?_⟩, ?_⟩
  · have hspans : spans (L ++ b.without l r c hcells :: R) = spans (L ++ b :: R) := by
      simp [spans]
    rw [hspans]
    exact h.good
  · obtain ⟨d, hd, rfl⟩ := List.mem_map.mp (h.own hq)
    exact List.mem_map_of_mem (hmem d hd fun hc => hown (hc ▸ hq))
  · have hne : ∀ d : Cell, d.ptr ∉ P.own s.pager ∪ {c.ptr} → d.ptr ≠ c.ptr := fun d hd hc =>
      hd (.inr hc)
    refine ⟨fun d hd ho => hmem d hd (hne d ho), fun d _ ho hc => ho (.inl hc), fun d hd ho => ?_, ?_⟩
    · refine ⟨(mem_allCells_without hcells).mpr (.inr hd), ?_⟩
      rintro (hc | hc)
      · exact ho hc
      · exact h.holds.ptr_ne_without hcells hU hd hc
    · exact fun d hd ho i hi => h.holds.bytes_released hcells hU (hmem d hd (hne d ho)) hi

/-- **`kfree` of an allocation.** Every other allocation is left as it is, and no empty block
is kept. -/
theorem kfree_spec {Bs : List Block} (h : Sound P s Bs) (hc : c ∈ allCells Bs)
    (hown : c.ptr ∉ P.own s.pager) :
    ∃ Bs', Sound P (kfree K c.ptr s) Bs' ∧
      Undisturbed (P.own s.pager ∪ {c.ptr}) (P.own (kfree K c.ptr s).pager) s.mem
        (kfree K c.ptr s).mem Bs Bs' ∧ (Full Bs → Full Bs') := by
  obtain ⟨b, hb, hcb⟩ := mem_allCells.mp hc
  obtain ⟨L, R, rfl⟩ := List.append_of_mem hb
  obtain ⟨l, r, hcells⟩ := List.append_of_mem hcb
  obtain ⟨m, hU, heq⟩ := kfree_eq K h.holds hcells
  obtain ⟨hsound, hund⟩ := h.released hcells hU hown
  rw [heq]
  by_cases hnil : l ++ r = []
  · rw [if_pos hnil]
    obtain ⟨s₂, hrel, hholds, hpager, hbytes⟩ := releaseMajor_spec K hsound.holds
      (b := b.without l r c hcells) hnil
    have hall : allCells (L ++ b.without l r c hcells :: R) = allCells (L ++ R) := by
      simp [allCells, hnil]
    have hfresh : Fresh (L ++ R) b.addr b.pages := by
      refine ⟨b.bound, fun a ha => ?_⟩
      exact Or.symm (h.holds.apart_of_mem ha)
    have hgood := h.good
    rw [spans, List.map_append, List.map_cons] at hgood
    have hown₂ : P.own s₂.pager ⊆ {q | q ∈ (allCells (L ++ R)).map Cell.ptr} := by
      rw [hpager, ← hall]
      exact hsound.own
    obtain ⟨Bs', hholds', hfull, hund', hown', hgood'⟩ :=
      P.free_spec hrel.symm hholds (hpager.symm ▸ hgood) hfresh hown₂
    refine ⟨Bs', ⟨hholds', hgood', hown'⟩, hund.trans (Undisturbed.trans ?_ hund'), fun hf =>
      hfull fun a ha => hf a (mem_middle_of_ne ha)⟩
    rw [hpager]
    refine ⟨fun d hd _ => hall ▸ hd, fun d _ ho => ho, fun d hd ho => ⟨hall ▸ hd, ho⟩,
      fun d hd _ i hi => ?_⟩
    obtain ⟨a, ha, hda⟩ := mem_allCells.mp (hall ▸ hd)
    have hpay := payload_bounds hda hi
    apply hbytes
    intro e he
    have herec := e.record_le
    rcases h.holds.blocks_apart (mem_middle_of_ne ha) (mem_middle_of_ne he) with rfl | hap | hap
    · exact .inr (by omega)
    · exact .inl (by omega)
    · exact .inr (by omega)
  · rw [if_neg hnil, reconsider]
    have hmem : b.without l r c hcells ∈ L ++ b.without l r c hcells :: R :=
      List.mem_append_right L List.mem_cons_self
    have hbet := hsound.bestBet hmem
    have hfull : Full (L ++ b :: R) → Full (L ++ b.without l r c hcells :: R) := by
      intro hf a ha
      rcases mem_middle ha with rfl | ha
      · exact hnil
      · exact hf a (mem_middle_of_ne ha)
    split
    · exact ⟨_, hsound, hund, hfull⟩
    · split
      · exact ⟨_, hbet, hund, hfull⟩
      · exact ⟨_, hsound, hund, hfull⟩

@[simp] theorem reconsider_mem (maj : ℕ) (s : Heap σ) : (reconsider maj s).mem = s.mem := by
  rw [reconsider]
  split
  · rfl
  · split <;> rfl

/-- A pointer to a record that was freed is refused. -/
theorem kfree_dead (K : Hooks σ) {t : Heap σ} {p a : ℕ} (hp : p ≠ 0)
    (hmin : sub64 (unalign t.mem p) recordSize = a) (hdead : Minor.magic.get t.mem a = magicDead) :
    kfree K p t = complain magicDead t := by
  rw [kfree, if_neg hp]
  simp only [hmin, hdead]
  rw [if_pos (by decide)]

/-- **Freeing twice.** If the block was not given back, the second call finds the magic number
gone and counts an error. -/
theorem kfree_kfree (K : Hooks σ) (h : Holds s (L ++ b :: R)) (hcells : b.cells = l ++ c :: r)
    (hrest : l ++ r ≠ []) : kfree K c.ptr (kfree K c.ptr s) =
      { kfree K c.ptr s with errorCount := (kfree K c.ptr s).errorCount + 1 } := by
  have hc : c ∈ b.cells := hcells ▸ List.mem_append_right l List.mem_cons_self
  have hin : b.In s.mem := h.records b (List.mem_append_right L List.mem_cons_self)
  have hcb := b.cell_bounds hc
  have hbound : b.stop ≤ 2 ^ 64 := b.bound
  have hptr := c.ptr_bounds
  have hlt := c.ptr_lt
  have hroom := c.room_le
  have hlen := c.len_eq
  obtain ⟨m, hU, heq⟩ := kfree_eq K h hcells
  rw [if_neg hrest] at heq
  obtain ⟨t, ht⟩ : ∃ t, kfree K c.ptr s = t := ⟨_, rfl⟩
  obtain rfl : t.mem = m := by rw [← ht, heq, reconsider_mem]
  have hmin : sub64 (unalign t.mem c.ptr) recordSize = c.addr := by
    have hnote := hU.note
    rw [← sub64_eq (a := c.ptr) (b := alignment) (by rw [alignment_eq]; omega) (by omega)] at hnote
    rw [unalign, hnote, ← unalign, record_of_ptr (hin.cells c hc) (by omega)]
  rw [ht, kfree_dead K (by omega) hmin hU.magic, complain, if_neg (by decide)]

end

end Liballoc

end BootableKernel
