import BootableKernel.Heap.Free

/-!
# `kcalloc` and `krealloc`

Both are written in terms of `kmalloc` and `kfree`. `kcalloc` clears what it was given, and
`krealloc` moves an allocation that has to grow: it copies the old bytes and frees the old
place. The bytes of an allocation are apart from every record, so neither the two loops nor
the client of the heap disturb anything when they write there.
-/

namespace BootableKernel

namespace Liballoc

open Arena Links

variable {σ : Type} {K : Hooks σ} {P : Pager K}

/-! ## The two loops -/

section
variable {m : Bytes} {dst src x : ℕ}

/-- **`liballoc_memset`.** -/
theorem byte_memset (m : Bytes) (a c n x : ℕ) : (memset m a c n).byte x =
    if a ≤ x ∧ x < a + n then BitVec.ofNat 8 c else m.byte x := by
  induction n with
  | zero => rw [memset, if_neg (by omega)]
  | succ n ih =>
      rw [memset, Bytes.byte_store, ih]
      by_cases hx : x = a + n
      · rw [if_pos (by omega), if_pos (by omega), hx, Nat.sub_self, Nat.pow_zero, Nat.div_one]
      · rw [if_neg (by omega)]
        by_cases hx' : a ≤ x ∧ x < a + n
        · rw [if_pos hx', if_pos (by omega)]
        · rw [if_neg hx', if_neg (by omega)]

/-- One turn of a copying loop, and the turns after it. -/
theorem byte_copy_succ {m' : Bytes} {w k : ℕ} (hap : dst + (w + k) ≤ src ∨ src + (w + k) ≤ dst)
    (ih : m'.byte x = if dst + w ≤ x ∧ x < dst + w + k
      then (m.store w dst (m.load w src)).byte (src + w + (x - (dst + w)))
      else (m.store w dst (m.load w src)).byte x) :
    m'.byte x = if dst ≤ x ∧ x < dst + (w + k) then m.byte (src + (x - dst)) else m.byte x := by
  rw [ih]
  by_cases hrest : dst + w ≤ x ∧ x < dst + w + k
  · rw [if_pos hrest, if_pos (by omega), Bytes.store_of_outside (by omega)]
    congr 1
    omega
  · rw [if_neg hrest, Bytes.byte_store]
    by_cases hx : dst ≤ x ∧ x < dst + w
    · rw [if_pos hx, if_pos (by omega), Bytes.ofNat_load m (by omega)]
    · rw [if_neg hx, if_neg (by omega)]

theorem byte_copyWords {k : ℕ} (hap : dst + 4 * k ≤ src ∨ src + 4 * k ≤ dst) :
    (copyWords k m dst src).byte x =
      if dst ≤ x ∧ x < dst + 4 * k then m.byte (src + (x - dst)) else m.byte x := by
  induction k generalizing m dst src with
  | zero => rw [copyWords, if_neg (by omega)]
  | succ k ih =>
      have hk : 4 * (k + 1) = 4 + 4 * k := by omega
      rw [hk] at hap ⊢
      exact byte_copy_succ hap (ih (by omega))

theorem byte_copyBytes {k : ℕ} (hap : dst + k ≤ src ∨ src + k ≤ dst) :
    (copyBytes k m dst src).byte x =
      if dst ≤ x ∧ x < dst + k then m.byte (src + (x - dst)) else m.byte x := by
  induction k generalizing m dst src with
  | zero => rw [copyBytes, if_neg (by omega)]
  | succ k ih =>
      rw [copyBytes, Nat.add_comm k 1]
      rw [Nat.add_comm k 1] at hap
      exact byte_copy_succ hap (ih (by omega))

/-- **`liballoc_memcpy`**, between ranges that lie apart. -/
theorem byte_memcpy {n : ℕ} (hap : dst + n ≤ src ∨ src + n ≤ dst) :
    (memcpy m dst src n).byte x =
      if dst ≤ x ∧ x < dst + n then m.byte (src + (x - dst)) else m.byte x := by
  have hn : 4 * (n / 4) + n % 4 = n := Nat.div_add_mod n 4
  have hwords : ∀ y, (copyWords (n / 4) m dst src).byte y =
      if dst ≤ y ∧ y < dst + 4 * (n / 4) then m.byte (src + (y - dst)) else m.byte y :=
    fun y => byte_copyWords (by omega)
  rw [memcpy, byte_copyBytes (by omega), hwords, hwords]
  by_cases hx : dst ≤ x ∧ x < dst + n
  · rw [if_pos hx]
    by_cases htail : dst + 4 * (n / 4) ≤ x
    · rw [if_pos (by omega), if_neg (by omega)]
      congr 1
      omega
    · rw [if_neg (by omega), if_pos (by omega)]
  · rw [if_neg hx, if_neg (by omega), if_neg (by omega)]

end

/-! ## The bytes of an allocation -/

section
variable {s : Heap σ} {Bs : List Block} {c d : Cell} {m : Bytes}

/-- Two cells are the same, or they lie apart. -/
theorem Holds.cells_apart (h : Holds s Bs) (hc : c ∈ allCells Bs) (hd : d ∈ allCells Bs) :
    c = d ∨ c.addr + c.len ≤ d.addr ∨ d.addr + d.len ≤ c.addr := by
  obtain ⟨a, ha, hca⟩ := mem_allCells.mp hc
  obtain ⟨b, hb, hdb⟩ := mem_allCells.mp hd
  rcases h.blocks_apart ha hb with rfl | hap
  · exact a.cells_apart hca hdb
  · have hcb := a.cell_bounds hca
    have hdb := b.cell_bounds hdb
    rcases hap with hap | hap
    · exact .inr (.inl (by omega))
    · exact .inr (.inr (by omega))

/-- The pointer tells the cell. -/
theorem Holds.eq_of_ptr_eq (h : Holds s Bs) (hc : c ∈ allCells Bs) (hd : d ∈ allCells Bs)
    (hptr : c.ptr = d.ptr) : c = d := by
  refine (h.cells_apart hc hd).resolve_right fun hap => ?_
  have hcp := c.ptr_bounds
  have hdp := d.ptr_bounds
  have hcl := c.ptr_lt
  have hdl := d.ptr_lt
  have hcr := c.room_le
  have hdr := d.room_le
  rw [Cell.len_eq, Cell.len_eq] at hap
  omega

/-- The bytes of two allocations lie apart. -/
theorem Holds.payload_apart (h : Holds s Bs) (hc : c ∈ allCells Bs) (hd : d ∈ allCells Bs)
    (hptr : c.ptr ≠ d.ptr) : c.ptr + c.req ≤ d.ptr ∨ d.ptr + d.req ≤ c.ptr := by
  have hcp := c.ptr_bounds
  have hdp := d.ptr_bounds
  rcases h.cells_apart hc hd with rfl | hap | hap
  · exact absurd rfl hptr
  · exact .inl (by omega)
  · exact .inr (by omega)

/-- The allocator uses no byte of an allocation for itself. -/
theorem Holds.reserved_apart (h : Holds s Bs) {b : Block} (hb : b ∈ Bs) (hc : c ∈ allCells Bs)
    {x : ℕ} (hx : b.Reserved x) : x < c.ptr ∨ c.ptr + c.req ≤ x := by
  obtain ⟨a, ha, hca⟩ := mem_allCells.mp hc
  have hcb := a.cell_bounds hca
  have hcp := c.ptr_bounds
  rcases h.blocks_apart ha hb with rfl | hap
  · rcases hx with ⟨hx, hx'⟩ | ⟨e, he, hx, hx'⟩
    · rw [recordSize_eq] at hx'
      exact .inl (by omega)
    · have hep := e.ptr_bounds
      rcases a.cells_apart hca he with rfl | hap | hap
      · exact .inl hx'
      · exact .inr (by omega)
      · exact .inl (by omega)
  · have hxb := hx.bounds
    rcases hap with hap | hap
    · exact .inr (by omega)
    · exact .inl (by omega)

/-- **Writing to an allocation** leaves the heap in order, and the other allocations alone. -/
theorem Sound.write (h : Sound P s Bs) (hc : c ∈ allCells Bs)
    (hm : ∀ x, x < c.ptr ∨ c.ptr + c.req ≤ x → m.byte x = s.mem.byte x) :
    Sound P { s with mem := m } Bs := by
  have hreserved : ∀ b ∈ Bs, ∀ x, b.Reserved x → m.byte x = s.mem.byte x := fun b hb x hx =>
    hm x (h.holds.reserved_apart hb hc hx)
  have hlinks : ∀ (f : Member 40), ∀ b ∈ Bs, f.get m b.addr = f.get s.mem b.addr := by
    intro f b hb
    have hfits := f.fits
    apply Member.get_congr
    intro x hx hx'
    exact hreserved b hb x (.inl ⟨by omega, by rw [recordSize_eq]; omega⟩)
  refine ⟨⟨h.holds.apart, h.holds.root, ?_, ?_, h.holds.bet, h.holds.allocated, h.holds.inuse⟩,
    h.good, h.own⟩
  · apply h.holds.majors.congr
    · simp only [List.forall_mem_map]
      exact hlinks _
    · simp only [List.forall_mem_map]
      exact hlinks _
  · exact fun b hb => (h.holds.records b hb).congr fun x hx _ => hreserved b hb x hx

/-- The bytes of the other allocations, when one is written to. -/
theorem Holds.byte_write (h : Holds s Bs) (hc : c ∈ allCells Bs)
    (hm : ∀ x, x < c.ptr ∨ c.ptr + c.req ≤ x → m.byte x = s.mem.byte x) (hd : d ∈ allCells Bs)
    (hne : d.ptr ≠ c.ptr) {i : ℕ} (hi : i < d.req) :
    m.byte (d.ptr + i) = s.mem.byte (d.ptr + i) := by
  apply hm
  rcases h.payload_apart hd hc hne with hap | hap
  · exact .inl (by omega)
  · exact .inr (by omega)

end

/-! ## `kcalloc` -/

section
variable {s : Heap σ} {Bs : List Block}

/-- The new allocation is written to before it is handed out. -/
theorem Allocated.write {s' : Heap σ} {Bs' : List Block} {size req p : ℕ} {m : Bytes}
    (h : Allocated P s Bs size req p s' Bs') (hp : p ≠ 0)
    (hm : ∀ x, x < p ∨ p + req ≤ x → m.byte x = s'.mem.byte x) :
    Allocated P s Bs size req p { s' with mem := m } Bs' := by
  obtain ⟨c, hc, rfl, hsize, rfl⟩ := h.cell hp
  refine ⟨h.sound.write hc hm, ⟨h.undisturbed.mem, h.undisturbed.free, h.undisturbed.old, ?_⟩, h.cell,
    h.owned, h.full, h.asked, h.fits⟩
  intro d hd ho i hi
  have hd' := h.undisturbed.mem d hd ho
  have hne : d.ptr ≠ c.ptr := fun hc => h.undisturbed.free d hd ho (.inr hc)
  rw [h.sound.holds.byte_write hc hm hd' hne hi, h.undisturbed.bytes d hd ho i hi]

/-- **`kcalloc`.** The product of its arguments is taken as a 64-bit number. -/
theorem kcalloc_answers {nobj size : ℕ} (hreq : nobj * size % 2 ^ 64 + 32 ≤ maxSize)
    (h : Sound P s Bs) {fuel : ℕ} (hfuel : turns Bs ≤ fuel) :
    ∃ p s' Bs', kcalloc K fuel nobj size s = some (p, s') ∧
      Allocated P s Bs (nobj * size % 2 ^ 64 + 32) (nobj * size % 2 ^ 64) p s' Bs' ∧
      (p ≠ 0 → ∀ i < nobj * size % 2 ^ 64, s'.mem.byte (p + i) = 0) := by
  obtain ⟨p, s', Bs', hout, halloc⟩ := kmalloc_answers hreq h hfuel
  by_cases hp : p = 0
  · subst hp
    refine ⟨0, s', Bs', ?_, halloc, fun h0 => absurd rfl h0⟩
    simp only [kcalloc, hout, Option.bind_eq_bind, Option.bind_some, if_true]
  · refine ⟨p, { s' with mem := memset s'.mem p 0 (nobj * size % 2 ^ 64) }, Bs', ?_,
      halloc.write hp fun x hx => ?_, fun _ i hi => ?_⟩
    · simp only [kcalloc, hout, Option.bind_eq_bind, Option.bind_some, if_neg hp]
    · rw [byte_memset, if_neg (by omega)]
    · rw [byte_memset, if_pos (by omega)]
      rfl

end

/-! ## `krealloc` -/

/-- The cell with another number of bytes that were asked for. -/
def Cell.shrink (c : Cell) (n : ℕ) (h : n ≤ c.req) : Cell :=
  { c with req := n, room := (Nat.add_le_add_right h _).trans c.room }

/-- The block with the cell `c` shrunk. -/
def Block.shrink (b : Block) (l r : List Cell) (c : Cell) (n : ℕ) (h : n ≤ c.req)
    (hcells : b.cells = l ++ c :: r) : Block :=
  { b with
    cells := l ++ c.shrink n h :: r
    packed := by
      have hpacked := b.packed
      rw [hcells, packed_append] at hpacked
      exact packed_append.mpr hpacked }

section
variable {s : Heap σ} {L R : List Block} {b : Block} {l r : List Cell} {c : Cell} {n : ℕ}

section
variable (h : n ≤ c.req) (hcells : b.cells = l ++ c :: r)

@[simp] theorem addr_shrink : (b.shrink l r c n h hcells).addr = b.addr := rfl
@[simp] theorem pages_shrink : (b.shrink l r c n h hcells).pages = b.pages := rfl
@[simp] theorem cells_shrink : (b.shrink l r c n h hcells).cells = l ++ c.shrink n h :: r := rfl

end

theorem mem_allCells_shrink (h : n ≤ c.req) (hcells : b.cells = l ++ c :: r) {d : Cell} :
    d ∈ allCells (L ++ b.shrink l r c n h hcells :: R) ↔
      d = c.shrink n h ∨ d ∈ allCells (L ++ b.without l r c hcells :: R) := by
  simp only [allCells, List.flatMap_append, List.flatMap_cons, cells_shrink, cells_without,
    List.mem_append, List.mem_cons]
  tauto

/-- Writing the new size to the record. -/
theorem Block.In.shrink {m : Bytes} (hin : b.In m) (h : n ≤ c.req)
    (hcells : b.cells = l ++ c :: r) :
    (b.shrink l r c n h hcells).In (Minor.reqSize.set m c.addr n) := by
  have hc : c ∈ b.cells := hcells ▸ List.mem_append_right l List.mem_cons_self
  have hcb := b.cell_bounds hc
  have hroom := c.room
  have hsmall := c.small
  have haddrs : cellAddrs (b.shrink l r c n h hcells).cells = cellAddrs b.cells := by
    simp [hcells, Cell.shrink]
  have husage : (b.shrink l r c n h hcells).usage = b.usage := by
    simp only [Block.usage, cells_shrink, hcells, used_append, used_cons]
    rfl
  have hmajor : ∀ f : Member 40, f.get (Minor.reqSize.set m c.addr n) b.addr = f.get m b.addr :=
    fun f => Member.get_set_of_apart (by omega)
  -- the links of all minors stay, since the new size goes elsewhere in the record of `c`
  have hlink : ∀ f : Member 40, f.off + f.width ≤ 16 → ∀ a ∈ cellAddrs b.cells,
      f.get (Minor.reqSize.set m c.addr n) a = f.get m a := by
    intro f hf a ha
    obtain ⟨d, hd, rfl⟩ := List.mem_map.mp ha
    have hsize := c.len_eq
    have hsize' := d.len_eq
    apply Member.get_congr
    intro x hx hx'
    apply Member.set_of_outside
    simp only [Minor.reqSize]
    rcases b.cells_apart hd hc with rfl | hap | hap <;> omega
  constructor
  · exact (hmajor _).trans hin.pages
  · exact (hmajor _).trans hin.size
  · exact (hmajor _).trans (hin.usage.trans husage.symm)
  · exact (hmajor _).trans (by rw [haddrs, hin.first])
  · rw [haddrs]
    exact hin.minors.congr (hlink _ (by decide)) (hlink _ (by decide))
  · intro d hd
    have hset : ∀ x, x < c.addr + 32 ∨ c.addr + 36 ≤ x →
        (Minor.reqSize.set m c.addr n).byte x = m.byte x := fun x hx =>
      Member.set_of_outside (by simp only [Minor.reqSize]; omega)
    rcases mem_middle hd with rfl | hd
    · have hrec := hin.cells c hc
      have hptr := c.ptr_bounds
      constructor
      · exact (Member.get_set_of_ne (by decide) m c.addr n).trans hrec.block
      · exact (Member.get_set_of_ne (by decide) m c.addr n).trans hrec.magic
      · exact (Member.get_set_of_ne (by decide) m c.addr n).trans hrec.size
      · exact Member.get_set_of_lt (lt_width32 _ (by omega) rfl)
      · refine (hset _ ?_).trans hrec.note
        have hptr' : (c.shrink n h).ptr = c.ptr := rfl
        rw [hptr', alignment_eq]
        omega
    · have hd' : d ∈ b.cells := hcells ▸ (sublist_middle l r c).mem hd
      apply (hin.cells d hd').congr
      intro x hx hx'
      apply hset
      have hlen := c.len_eq
      have hdp := d.ptr_bounds
      have hap := (b.around hcells).apart hd
      omega

/-- The cell `c` was given `n` bytes, and is now at `p`. -/
structure Resized (P : Pager K) (s : Heap σ) (Bs : List Block) (c : Cell) (n p : ℕ) (s' : Heap σ)
    (Bs' : List Block) : Prop where
  sound : Sound P s' Bs'
  undisturbed : Undisturbed (P.own s.pager ∪ {c.ptr}) (P.own s'.pager ∪ {p}) s.mem s'.mem Bs Bs'
  cell : ∃ d ∈ allCells Bs', d.ptr = p ∧ d.req = n ∧
    ∀ i < min c.req n, s'.mem.byte (p + i) = s.mem.byte (c.ptr + i)
  owned : p ∉ P.own s'.pager
  place : p = c.ptr ∨ ∀ d ∈ allCells Bs, d.ptr ∉ P.own s.pager → d.ptr ≠ p
  full : Full Bs → Full Bs'

/-- The heap with the cell `c` shrunk. -/
theorem Holds.shrink (hs : Holds s (L ++ b :: R)) (h : n ≤ c.req) (hcells : b.cells = l ++ c :: r) :
    Holds { s with mem := Minor.reqSize.set s.mem c.addr n }
      (L ++ b.shrink l r c n h hcells :: R) := by
  have hcb := b.cell_bounds (c := c) (hcells ▸ List.mem_append_right l List.mem_cons_self)
  have hlen := c.len_eq
  have hroom := c.room
  refine hs.replace rfl rfl ((hs.records b (List.mem_append_right L List.mem_cons_self)).shrink h
    hcells) (fun x hx => Member.set_of_apart (by omega)) rfl hs.bet rfl ?_
  rw [hs.inuse]
  simp [handedOut, hcells, Cell.shrink]

/-- **Shrinking in place.** -/
theorem Sound.shrink (hs : Sound P s (L ++ b :: R)) (h : n ≤ c.req) (hcells : b.cells = l ++ c :: r)
    (hown : c.ptr ∉ P.own s.pager) :
    Resized P s (L ++ b :: R) c n c.ptr { s with mem := Minor.reqSize.set s.mem c.addr n }
      (L ++ b.shrink l r c n h hcells :: R) := by
  have hmem : ∀ d ∈ allCells (L ++ b :: R), d.ptr ≠ c.ptr →
      d ∈ allCells (L ++ b.shrink l r c n h hcells :: R) := by
    intro d hd hne
    rcases (mem_allCells_without hcells).mp hd with rfl | hd
    · exact absurd rfl hne
    · exact (mem_allCells_shrink h hcells).mpr (.inr hd)
  have hc : c ∈ allCells (L ++ b :: R) := (mem_allCells_without hcells).mpr (.inl rfl)
  have hcp := c.ptr_bounds
  have hbyte : ∀ x, x < c.addr + 32 ∨ c.addr + 36 ≤ x →
      (Minor.reqSize.set s.mem c.addr n).byte x = s.mem.byte x := fun x hx =>
    Member.set_of_outside (by simp only [Minor.reqSize]; omega)
  have hother : ∀ {d : Cell}, d.ptr ∉ P.own s.pager ∪ {c.ptr} → d.ptr ≠ c.ptr := fun ho hd =>
    ho (.inr hd)
  refine ⟨⟨hs.holds.shrink h hcells, ?_, fun q hq => ?_⟩, ⟨?_, fun _ _ ho => ho, ?_, ?_⟩, ?_, hown,
    .inl rfl, fun hf a ha => ?_⟩
  · have hspans : spans (L ++ b.shrink l r c n h hcells :: R) = spans (L ++ b :: R) := by
      simp [spans]
    rw [hspans]
    exact hs.good
  · obtain ⟨d, hd, rfl⟩ := List.mem_map.mp (hs.own hq)
    exact List.mem_map_of_mem (hmem d hd fun hd => hown (hd ▸ hq))
  · exact fun d hd ho => hmem d hd (hother ho)
  · intro d hd ho
    rcases (mem_allCells_shrink h hcells).mp hd with rfl | hd
    · exact absurd rfl (hother ho)
    · exact ⟨(mem_allCells_without hcells).mpr (.inr hd), ho⟩
  · intro d hd ho i hi
    have hdp := d.ptr_bounds
    have hlen := c.len_eq
    have hroom := c.room
    apply hbyte
    rcases hs.holds.cells_apart hd hc with rfl | hap | hap
    · exact absurd rfl (hother ho)
    · exact .inl (by omega)
    · exact .inr (by omega)
  · exact ⟨_, (mem_allCells_shrink h hcells).mpr (.inl rfl), rfl, rfl, fun i hi =>
      hbyte _ (.inr (by omega))⟩
  · rcases mem_middle ha with rfl | ha
    · simp
    · exact hf a (mem_middle_of_ne ha)

end

/-- Cells may be left out on both sides. -/
theorem Undisturbed.union {own own' : Set ℕ} {m m' : Bytes} {Bs Bs' : List Block}
    (h : Undisturbed own own' m m' Bs Bs') (T : Set ℕ) :
    Undisturbed (own ∪ T) (own' ∪ T) m m' Bs Bs' := by
  simp only [Set.union_def]
  constructor
  · exact fun c hc ho => h.mem c hc fun hq => ho (.inl hq)
  · exact fun c hc ho hq => hq.elim (h.free c hc fun hq => ho (.inl hq)) fun hq => ho (.inr hq)
  · intro c hc ho
    obtain ⟨hc', ho'⟩ := h.old c hc fun hq => ho (.inl hq)
    exact ⟨hc', fun hq => hq.elim ho' fun hq => ho (.inr hq)⟩
  · exact fun c hc ho => h.bytes c hc fun hq => ho (.inl hq)

section
variable {s : Heap σ} {Bs : List Block} {c : Cell} {n fuel : ℕ}

/-- What `krealloc` does with an allocation. -/
theorem krealloc_eq (h : Holds s Bs) (hc : c ∈ allCells Bs) (hn : n ≠ 0) :
    krealloc K fuel c.ptr n s =
      if n ≤ c.req then some (c.ptr, { s with mem := Minor.reqSize.set s.mem c.addr n })
      else (kmalloc K fuel n s).bind fun out => if out.1 = 0 then some (0, out.2)
        else some (out.1, kfree K c.ptr { out.2 with mem := memcpy out.2.mem out.1 c.ptr c.req }) := by
  obtain ⟨b, hb, hcb⟩ := mem_allCells.mp hc
  have hin := (h.records b hb).cells c hcb
  have hbounds := b.cell_bounds hcb
  have hstop : b.stop ≤ 2 ^ 64 := b.bound
  have hptr := c.ptr_bounds
  have hlt := c.ptr_lt
  have hroom := c.room_le
  have hlen := c.len_eq
  rw [krealloc, if_neg hn, if_neg (by omega)]
  simp only [record_of_ptr hin (by omega), hin.magic, ne_eq, not_true_eq_false, if_false, hin.reqSize]
  rfl

/-- **Growing**: a new allocation with the old bytes, and the old one is freed. -/
theorem Allocated.moved {s₁ : Heap σ} {Bs₁ : List Block} {p : ℕ}
    (h : Allocated P s Bs (n + 32) n p s₁ Bs₁) (hp : p ≠ 0) (hc : c ∈ allCells Bs)
    (hown : c.ptr ∉ P.own s.pager) (hn : c.req < n) :
    ∃ Bs', Resized P s Bs c n p (kfree K c.ptr { s₁ with mem := memcpy s₁.mem p c.ptr c.req })
      Bs' := by
  obtain ⟨d, hd, rfl, -, rfl⟩ := h.cell hp
  have hc₁ := h.undisturbed.mem c hc hown
  have hfree := h.undisturbed.free c hc hown
  have hne : c.ptr ≠ d.ptr := fun heq => hfree (.inr heq)
  have hap := h.sound.holds.payload_apart hc₁ hd hne
  have hbyte : ∀ x, (memcpy s₁.mem d.ptr c.ptr c.req).byte x = if d.ptr ≤ x ∧ x < d.ptr + c.req
      then s₁.mem.byte (c.ptr + (x - d.ptr)) else s₁.mem.byte x := fun x =>
    byte_memcpy (by omega)
  have h₂ := h.write hp (m := memcpy s₁.mem d.ptr c.ptr c.req) fun x hx => by
    rw [hbyte, if_neg (by omega)]
  have hown₂ : c.ptr ∉ P.own s₁.pager := fun hq => hfree (.inl hq)
  obtain ⟨Bs', hsound, hund, hfull⟩ := kfree_spec h₂.sound hc₁ hown₂
  have hd' : d.ptr ∉ P.own s₁.pager ∪ {c.ptr} := by
    rintro (hq | hq)
    · exact h.owned hq
    · exact hne hq.symm
  refine ⟨Bs', hsound, ?_, ⟨d, hund.mem d hd hd', rfl, rfl, fun i hi => ?_⟩,
    hund.free d hd hd', .inr fun e he ho heq => h.undisturbed.free e he ho (.inr heq),
    fun hf => hfull (h.full hf)⟩
  · refine (h₂.undisturbed.union {c.ptr}).trans ?_
    rw [Set.union_right_comm]
    exact hund.union {d.ptr}
  · rw [hund.bytes d hd hd' i (by omega), hbyte, if_pos (by omega), Nat.add_sub_cancel_left,
      h.undisturbed.bytes c hc hown i (by omega)]

/-- **`krealloc` of an allocation.** It is resized, or the request is refused and the heap is
as `kmalloc` left it. -/
theorem krealloc_answers (hn : n ≠ 0) (hmax : n + 32 ≤ maxSize) (h : Sound P s Bs)
    (hc : c ∈ allCells Bs) (hown : c.ptr ∉ P.own s.pager) (hfuel : turns Bs ≤ fuel) :
    ∃ p s' Bs', krealloc K fuel c.ptr n s = some (p, s') ∧
      (p = 0 ∧ Allocated P s Bs (n + 32) n p s' Bs' ∨ p ≠ 0 ∧ Resized P s Bs c n p s' Bs') := by
  rw [krealloc_eq h.holds hc hn]
  by_cases hle : n ≤ c.req
  · obtain ⟨b, hb, hcb⟩ := mem_allCells.mp hc
    obtain ⟨L, R, rfl⟩ := List.append_of_mem hb
    obtain ⟨l, r, hcells⟩ := List.append_of_mem hcb
    rw [if_pos hle]
    exact ⟨_, _, _, rfl, .inr ⟨c.ptr_ne_zero, h.shrink hle hcells hown⟩⟩
  · obtain ⟨p, s₁, Bs₁, hout, halloc⟩ := kmalloc_answers hmax h hfuel
    rw [if_neg hle, hout, Option.bind_some]
    by_cases hp : p = 0
    · exact ⟨0, s₁, Bs₁, if_pos hp, .inl ⟨rfl, hp ▸ halloc⟩⟩
    · obtain ⟨Bs', hres⟩ := halloc.moved hp hc hown (Nat.lt_of_not_le hle)
      exact ⟨p, _, Bs', if_neg hp, .inr ⟨hp, hres⟩⟩

end

end Liballoc

end BootableKernel
