import BootableKernel.Heap.Blocks

/-!
# Putting a cell into a block

`kmalloc` writes a new minor record in four ways, depending on where the gap is. `Placed`
says what they have in common: the record is there, its neighbours point to it, the usage
has grown, and nothing else changed. From that, the block holds one cell more.
-/

namespace BootableKernel

namespace Liballoc

open Arena Links

/-- The bytes that are written when `c` is put between the minors at `p` and `n` of the
block at `maj`; a neighbour is `0` if there is none. -/
def Touched (maj p n : ℕ) (c : Cell) (x : ℕ) : Prop :=
  (c.addr ≤ x ∧ x < c.ptr) ∨ (maj + 24 ≤ x ∧ x < maj + 28) ∨
    (p = 0 ∧ maj + 32 ≤ x ∧ x < maj + 40) ∨ (p ≠ 0 ∧ p + 8 ≤ x ∧ x < p + 16) ∨
    (n ≠ 0 ∧ n ≤ x ∧ x < n + 8)

/-- The cell `c` was put between the minors at `p` and `n`. -/
structure Placed (m m' : Bytes) (maj p n : ℕ) (c : Cell) : Prop where
  prev : Minor.prev.get m' c.addr = p
  next : Minor.next.get m' c.addr = n
  cell : c.In m' maj
  usage : Major.usage.get m' maj = (Major.usage.get m maj + c.len) % 2 ^ 32
  first : Major.first.get m' maj = if p = 0 then c.addr else Major.first.get m maj
  left : p ≠ 0 → Minor.next.get m' p = c.addr
  right : n ≠ 0 → Minor.prev.get m' n = c.addr
  frame : ∀ x, ¬ Touched maj p n c x → m'.byte x = m.byte x

/-- The record at `p`, if there is one, is that of `d`, or it lies apart from `d`. -/
def Beside (p : ℕ) (d : Cell) : Prop :=
  p = 0 ∨ d.addr = p ∨ d.addr + d.len ≤ p ∨ p + 40 ≤ d.addr

section
variable {m m' : Bytes} {maj p n : ℕ} {c d : Cell}

/-- Only the links of the neighbours change. -/
theorem next_eq_of_frame (h : ∀ x, ¬ Touched maj p n c x → m'.byte x = m.byte x)
    (hc : d.addr + d.len ≤ c.addr ∨ c.addr + c.len ≤ d.addr) (hmaj : maj + 40 ≤ d.addr)
    (hp : Beside p d) (hn : Beside n d) (hne : d.addr ≠ p) :
    Minor.next.get m' d.addr = Minor.next.get m d.addr := by
  have hptr := c.ptr_bounds
  have hlen := d.len_eq
  apply Member.get_congr
  simp only [Minor.next]
  intro x hx hx'
  apply h
  simp only [Touched, Beside] at hp hn ⊢
  omega

@[inherit_doc next_eq_of_frame]
theorem prev_eq_of_frame (h : ∀ x, ¬ Touched maj p n c x → m'.byte x = m.byte x)
    (hc : d.addr + d.len ≤ c.addr ∨ c.addr + c.len ≤ d.addr) (hmaj : maj + 40 ≤ d.addr)
    (hp : Beside p d) (hn : Beside n d) (hne : d.addr ≠ n) :
    Minor.prev.get m' d.addr = Minor.prev.get m d.addr := by
  have hptr := c.ptr_bounds
  have hlen := d.len_eq
  apply Member.get_congr
  simp only [Minor.prev]
  intro x hx hx'
  apply h
  simp only [Touched, Beside] at hp hn ⊢
  omega

end

/-- The neighbours of a gap are among the cells. -/
theorem exists_cell_last {cs : List Cell} (h : last 0 (cellAddrs cs) ≠ 0) :
    ∃ d ∈ cs, d.addr = last 0 (cellAddrs cs) := by
  have hne : cellAddrs cs ≠ [] := by
    intro hc
    rw [hc] at h
    exact h rfl
  exact List.mem_map.mp (last_mem 0 hne)

theorem exists_cell_head {cs : List Cell} (h : head 0 (cellAddrs cs) ≠ 0) :
    ∃ d ∈ cs, d.addr = head 0 (cellAddrs cs) := by
  have hne : cellAddrs cs ≠ [] := by
    intro hc
    rw [hc] at h
    exact h rfl
  exact List.mem_map.mp (head_mem 0 hne)

/-- A cell lies beside every other cell of its block. -/
theorem Block.beside (b : Block) {d : Cell} (hd : d ∈ b.cells) {p : ℕ}
    (hp : p ≠ 0 → ∃ e ∈ b.cells, e.addr = p) : Beside p d := by
  by_cases h0 : p = 0
  · exact .inl h0
  · obtain ⟨e, he, rfl⟩ := hp h0
    rcases b.cells_apart hd he with rfl | hde | hed
    · exact .inr (.inl rfl)
    · exact .inr (.inr (.inl hde))
    · rw [Cell.len_eq] at hed
      exact .inr (.inr (.inr (by omega)))

namespace Block.Around
variable {b : Block} {l r : List Cell} {c d : Cell}

/-- A cell that starts where the cells before it end. -/
theorem of_gap (hcells : b.cells = l ++ r)
    (hstart : c.addr = reach Cell.addr Cell.len (b.addr + recordSize) l)
    (hgap : c.addr + c.len ≤ limit Cell.addr b.stop r) : b.Around l r c :=
  ⟨hcells, Packed.insert (hcells ▸ b.packed) hstart (hstart ▸ hgap)⟩

theorem room (h : b.Around l r c) : c.addr + c.len ≤ limit Cell.addr b.stop r := by
  have hp := (packed_append.mp h.packed).2.2
  cases r with
  | nil => exact hp
  | cons d r => exact hp.1

theorem mem (h : b.Around l r c) (hd : d ∈ l ++ r) : d ∈ b.cells := h.cells ▸ hd

/-- The new cell lies behind the record of the block. -/
theorem base_le (h : b.Around l r c) : b.addr + 40 ≤ c.addr ∧ c.addr + c.len ≤ b.stop :=
  (b.insert l r c h).cell_bounds (List.mem_append_right l List.mem_cons_self)

/-- The other cells lie apart from the new one. -/
theorem apart (h : b.Around l r c) (hd : d ∈ l ++ r) :
    d.addr + d.len ≤ c.addr ∨ c.addr + c.len ≤ d.addr := by
  have haround := (b.insert l r c h).packed.around
  rcases List.mem_append.mp hd with hd | hd
  · exact .inl (haround.1 d hd)
  · exact .inr (haround.2 d hd)

theorem beside_last (h : b.Around l r c) (hd : d ∈ l ++ r) :
    Beside (last 0 (cellAddrs l)) d := by
  apply b.beside (h.mem hd)
  intro h0
  obtain ⟨e, he, heq⟩ := exists_cell_last h0
  exact ⟨e, h.mem (List.mem_append_left r he), heq⟩

theorem beside_head (h : b.Around l r c) (hd : d ∈ l ++ r) :
    Beside (head 0 (cellAddrs r)) d := by
  apply b.beside (h.mem hd)
  intro h0
  obtain ⟨e, he, heq⟩ := exists_cell_head h0
  exact ⟨e, h.mem (List.mem_append_right l he), heq⟩

/-- The neighbours lie behind the record of the block. -/
theorem neighbours (h : b.Around l r c) :
    (last 0 (cellAddrs l) = 0 ∨ b.addr + 40 ≤ last 0 (cellAddrs l)) ∧
      (head 0 (cellAddrs r) = 0 ∨ b.addr + 40 ≤ head 0 (cellAddrs r)) := by
  constructor
  · by_cases h0 : last 0 (cellAddrs l) = 0
    · exact .inl h0
    · obtain ⟨e, he, heq⟩ := exists_cell_last h0
      rw [← heq]
      exact .inr (b.cell_bounds (h.mem (List.mem_append_left r he))).1
  · by_cases h0 : head 0 (cellAddrs r) = 0
    · exact .inl h0
    · obtain ⟨e, he, heq⟩ := exists_cell_head h0
      rw [← heq]
      exact .inr (b.cell_bounds (h.mem (List.mem_append_right l he))).1

variable {m m' : Bytes}

/-- The links that are left when `c` comes or goes. -/
theorem kept (h : b.Around l r c)
    (hframe : ∀ x, ¬ Touched b.addr (last 0 (cellAddrs l)) (head 0 (cellAddrs r)) c x →
      m'.byte x = m.byte x) :
    Kept (Minor.next.get m) (Minor.prev.get m) (Minor.next.get m') (Minor.prev.get m') 0
      (cellAddrs l) (cellAddrs r) 0 := by
  have hnodup := b.nodup_cellAddrs
  rw [h.cells, cellAddrs, List.map_append, List.nodup_append] at hnodup
  have next : ∀ d ∈ l ++ r, d.addr ≠ last 0 (cellAddrs l) →
      Minor.next.get m' d.addr = Minor.next.get m d.addr := fun d hd =>
    next_eq_of_frame hframe (h.apart hd) (b.cell_bounds (h.mem hd)).1 (h.beside_last hd)
      (h.beside_head hd)
  have prev : ∀ d ∈ l ++ r, d.addr ≠ head 0 (cellAddrs r) →
      Minor.prev.get m' d.addr = Minor.prev.get m d.addr := fun d hd =>
    prev_eq_of_frame hframe (h.apart hd) (b.cell_bounds (h.mem hd)).1 (h.beside_last hd)
      (h.beside_head hd)
  -- a cell of one side is not the neighbour on the other
  have cross : ∀ d ∈ l, ∀ e ∈ r, d.addr ≠ e.addr := fun d hd e he =>
    hnodup.2.2 _ (List.mem_map_of_mem hd) _ (List.mem_map_of_mem he)
  have pos : ∀ d ∈ l ++ r, d.addr ≠ 0 := by
    intro d hd
    have := (b.cell_bounds (h.mem hd)).1
    omega
  constructor
  · simp only [List.forall_mem_map]
    exact fun d hd => next d (List.mem_append_left r hd)
  · simp only [List.forall_mem_map]
    intro d hd
    apply next d (List.mem_append_right l hd)
    intro heq
    obtain ⟨e, he, heq'⟩ := exists_cell_last (heq ▸ pos d (List.mem_append_right l hd))
    exact cross e he d hd (heq'.trans heq.symm)
  · simp only [List.forall_mem_map]
    intro d hd
    apply prev d (List.mem_append_left r hd)
    intro heq
    obtain ⟨e, he, heq'⟩ := exists_cell_head (heq ▸ pos d (List.mem_append_left r hd))
    exact cross d hd e he (heq.trans heq'.symm)
  · simp only [List.forall_mem_map]
    exact fun d hd => prev d (List.mem_append_right l hd)

/-- What is left of the other cells when `c` comes or goes. -/
theorem byte_eq (h : b.Around l r c)
    (hframe : ∀ x, ¬ Touched b.addr (last 0 (cellAddrs l)) (head 0 (cellAddrs r)) c x →
      m'.byte x = m.byte x) (hd : d ∈ l ++ r) {x : ℕ} (hx : d.addr + 16 ≤ x)
    (hx' : x < d.addr + d.len) : m'.byte x = m.byte x := by
  have hb := (b.cell_bounds (h.mem hd)).1
  have hap := h.apart hd
  have hp := h.beside_last hd
  have hn := h.beside_head hd
  have hcp := c.ptr_bounds
  apply hframe
  simp only [Touched, Beside] at hp hn ⊢
  omega

/-- What is left of the record of the block. -/
theorem major_eq (h : b.Around l r c)
    (hframe : ∀ x, ¬ Touched b.addr (last 0 (cellAddrs l)) (head 0 (cellAddrs r)) c x →
      m'.byte x = m.byte x) :
    Major.pages.get m' b.addr = Major.pages.get m b.addr ∧
      Major.size.get m' b.addr = Major.size.get m b.addr := by
  have hbase := h.base_le.1
  have hnb := h.neighbours
  have hbytes : ∀ x, b.addr + 16 ≤ x → x < b.addr + 24 → m'.byte x = m.byte x := by
    intro x hx hx'
    apply hframe
    simp only [Touched]
    omega
  constructor
  · apply Member.get_congr
    simp only [Major.pages]
    exact fun x hx hx' => hbytes x hx (by omega)
  · apply Member.get_congr
    simp only [Major.size]
    exact fun x hx hx' => hbytes x (by omega) (by omega)

/-- The records of the other cells. -/
theorem cell_in (h : b.Around l r c)
    (hframe : ∀ x, ¬ Touched b.addr (last 0 (cellAddrs l)) (head 0 (cellAddrs r)) c x →
      m'.byte x = m.byte x) (hd : d ∈ l ++ r) (hin : d.In m b.addr) : d.In m' b.addr := by
  have hdp := d.ptr_bounds
  apply hin.congr
  intro x hx hx'
  exact h.byte_eq hframe hd hx (by omega)

end Block.Around

section
variable {b : Block} {l r : List Cell} {c : Cell} (hg : b.Around l r c)

@[simp] theorem addr_insert : (b.insert l r c hg).addr = b.addr := rfl
@[simp] theorem pages_insert : (b.insert l r c hg).pages = b.pages := rfl
@[simp] theorem cells_insert : (b.insert l r c hg).cells = l ++ c :: r := rfl

end

theorem usage_insert {b : Block} {l r : List Cell} {c : Cell} (hg : b.Around l r c) :
    (b.insert l r c hg).usage = b.usage + c.len := by
  simp only [Block.usage, cells_insert, hg.cells, used_append, used_cons]
  omega

theorem last_cellAddrs_eq_zero {b : Block} {l r : List Cell} {c : Cell} (hg : b.Around l r c) :
    last 0 (cellAddrs l) = 0 ↔ l = [] := by
  constructor
  · intro h0
    cases l with
    | nil => rfl
    | cons d l =>
        have hlast : last 0 (cellAddrs (d :: l)) ∈ cellAddrs (d :: l) :=
          last_mem 0 (List.cons_ne_nil _ _)
        obtain ⟨e, he, heq⟩ := List.mem_map.mp hlast
        have hpos := (b.cell_bounds (hg.mem (List.mem_append_left r he))).1
        omega
  · rintro rfl
    rfl

theorem head_cellAddrs_eq_zero {b : Block} {l r : List Cell} {c : Cell} (hg : b.Around l r c) :
    head 0 (cellAddrs r) = 0 ↔ r = [] := by
  constructor
  · intro h0
    cases r with
    | nil => rfl
    | cons d r =>
        have hpos := (b.cell_bounds (hg.mem (List.mem_append_right l List.mem_cons_self))).1
        simp only [cellAddrs, List.map_cons, head_cons] at h0
        omega
  · rintro rfl
    rfl

/-- **A block holds the cell that was placed.** -/
theorem Block.In.insert {m m' : Bytes} {b : Block} (h : b.In m) {l r : List Cell} {c : Cell}
    (hg : b.Around l r c)
    (hP : Placed m m' b.addr (last 0 (cellAddrs l)) (head 0 (cellAddrs r)) c) :
    (b.insert l r c hg).In m' := by
  obtain ⟨hpages, hsize⟩ := hg.major_eq hP.frame
  constructor
  · exact hpages.trans h.pages
  · exact hsize.trans h.size
  · have hle := (b.insert l r c hg).usage_le
    have hsmall := (b.insert l r c hg).small
    rw [usage_insert] at hle ⊢
    rw [← Nat.mod_eq_of_lt (lt_of_le_of_lt hle hsmall), ← h.usage]
    exact hP.usage
  · refine hP.first.trans ?_
    simp only [cells_insert, cellAddrs, List.map_append, List.map_cons, head_append, head_cons]
    cases l with
    | nil => rfl
    | cons d l =>
        rw [if_neg (fun h0 => List.cons_ne_nil d l ((last_cellAddrs_eq_zero hg).mp h0)), h.first,
          hg.cells]
        rfl
  · have hnodup := b.nodup_cellAddrs
    have hlinked := h.minors
    simp only [hg.cells, cellAddrs, List.map_append] at hnodup hlinked
    simp only [cells_insert, cellAddrs, List.map_append, List.map_cons]
    refine hlinked.insert hnodup (hg.kept hP.frame) hP.prev hP.next (fun hl => hP.left ?_)
      (fun hr => hP.right ?_)
    · exact fun h0 => hl (by rw [(last_cellAddrs_eq_zero hg).mp h0]; rfl)
    · exact fun h0 => hr (by rw [(head_cellAddrs_eq_zero hg).mp h0]; rfl)
  · intro d hd
    have hd' : d = c ∨ d ∈ l ++ r := by
      simp only [cells_insert, List.mem_append, List.mem_cons] at hd ⊢
      tauto
    rcases hd' with rfl | hd
    · exact hP.cell
    · exact hg.cell_in hP.frame hd (h.cells d (hg.mem hd))

/-! ## The four cases -/

/-- The record of `c` is written, up to the usage of the block and the note of `ALIGN`. -/
structure Recorded (m m' : Bytes) (maj p n : ℕ) (c : Cell) : Prop where
  prev : Minor.prev.get m' c.addr = p
  next : Minor.next.get m' c.addr = n
  block : Minor.block.get m' c.addr = maj
  magic : Minor.magic.get m' c.addr = magicLive
  size : Minor.size.get m' c.addr = c.size
  reqSize : Minor.reqSize.get m' c.addr = c.req
  usage : Major.usage.get m' maj = Major.usage.get m maj
  first : Major.first.get m' maj = if p = 0 then c.addr else Major.first.get m maj
  left : p ≠ 0 → Minor.next.get m' p = c.addr
  right : n ≠ 0 → Minor.prev.get m' n = c.addr
  frame : ∀ x, ¬ Touched maj p n c x → m'.byte x = m.byte x

/-- A neighbour of `c` in the block at `maj`, if there is one. -/
def Neighbour (maj p : ℕ) (c : Cell) : Prop :=
  p = 0 ∨ maj + 40 ≤ p ∧ (p + 40 ≤ c.addr ∨ c.addr + c.len ≤ p)

@[simp] theorem width_usage : 256 ^ Major.usage.width = 2 ^ 32 := by decide

/-- The usage of the block and the note of `ALIGN` complete a recorded cell. -/
theorem Recorded.placed {m m' : Bytes} {maj p n : ℕ} {c : Cell} (h : Recorded m m' maj p n c)
    (hmaj : maj + 40 ≤ c.addr) (hp : Neighbour maj p c) (hn : Neighbour maj n c) :
    Placed m (alignNote (addUsage m' maj c.size) (c.addr + recordSize)) maj p n c := by
  have hptr := c.ptr_bounds
  have hlen := c.len_eq
  have hnote : align (c.addr + recordSize) - alignment = c.ptr - 16 := rfl
  -- the note is in the cell, behind its record
  have note : ∀ (f : Member 40) (m : Bytes) (d : ℕ), d ≤ c.addr ∨ c.addr + c.len ≤ d →
      f.get (alignNote m (c.addr + recordSize)) d = f.get m d := by
    intro f m d hd
    have hfits := f.fits
    apply Bytes.load_store_of_apart
    rw [hnote]
    omega
  have minor : ∀ (f : Member 40) (d : ℕ), maj + 40 ≤ d → d ≤ c.addr ∨ c.addr + c.len ≤ d →
      f.get (alignNote (addUsage m' maj c.size) (c.addr + recordSize)) d = f.get m' d := by
    intro f d hd hd'
    rw [note f _ d hd', addUsage]
    exact Member.get_set_of_apart (.inr hd)
  constructor
  · rw [minor _ _ hmaj (.inl le_rfl), h.prev]
  · rw [minor _ _ hmaj (.inl le_rfl), h.next]
  · constructor
    · rw [minor _ _ hmaj (.inl le_rfl), h.block]
    · rw [minor _ _ hmaj (.inl le_rfl), h.magic]
    · rw [minor _ _ hmaj (.inl le_rfl), h.size]
    · rw [minor _ _ hmaj (.inl le_rfl), h.reqSize]
    · rw [alignNote, hnote, alignment_eq, Bytes.byte_store, if_pos ⟨le_rfl, Nat.lt_succ_self _⟩,
        Nat.sub_self, Nat.pow_zero, Nat.div_one]
  · rw [note _ _ _ (.inl (by omega)), addUsage, Member.get_set_self, width_usage, h.usage,
      Nat.add_comm c.size, hlen, recordSize_eq]
  · rw [note _ _ _ (.inl (by omega)), addUsage, Member.get_set_of_ne (by decide), h.first]
  · intro h0
    rcases hp with hp | ⟨hp, hp'⟩
    · exact absurd hp h0
    · rw [minor _ _ hp (by omega), h.left h0]
  · intro h0
    rcases hn with hn | ⟨hn, hn'⟩
    · exact absurd hn h0
    · rw [minor _ _ hn (by omega), h.right h0]
  · intro x hx
    have hx' := hx
    rw [Touched] at hx'
    rw [alignNote, hnote, Bytes.store_of_outside (by omega), addUsage,
      Member.set_of_outside (by simp only [Major.usage]; omega), h.frame x hx]

theorem lt_width {v : ℕ} (f : Member 40) (h : v < 2 ^ 64) (hf : f.width = 8) :
    v < 256 ^ f.width := by
  rw [hf]
  exact h

theorem lt_width32 {v : ℕ} (f : Member 40) (h : v < 2 ^ 32) (hf : f.width = 4) :
    v < 256 ^ f.width := by
  rw [hf]
  exact h

variable {σ : Type}

/-- The state after a request was served from memory that became `m`. -/
abbrev served (s : Heap σ) (m : Bytes) (c : Cell) : ℕ × Heap σ :=
  (c.ptr, { s with mem := m, inuse := (s.inuse + c.size) % 2 ^ 64 })

section
variable {s : Heap σ} {maj p n : ℕ} {c : Cell}

theorem caseNew_spec (hc : c.addr = maj + 40) (hpos : 0 < maj) (hb : c.addr + c.len ≤ 2 ^ 64) :
    ∃ m', caseNew c.size c.req maj s = served s m' c ∧ Placed s.mem m' maj 0 0 c := by
  have hlen := c.len_eq
  have hroom := c.room_le
  have hsmall := c.small
  have hptr := c.ptr_bounds.1
  have hfirst : Major.first.get (Major.first.set s.mem maj (maj + recordSize)) maj = c.addr := by
    rw [hc]
    exact Member.get_set_of_lt (lt_width _ (by rw [recordSize_eq]; omega) rfl)
  simp only [caseNew, hfirst, handOut]
  refine ⟨_, rfl, Recorded.placed ?_ (by omega) (.inl rfl) (.inl rfl)⟩
  constructor
  · simp (disch := decide) only [Member.get_set_of_ne, Member.get_set_self, Nat.zero_mod]
  · simp (disch := decide) only [Member.get_set_of_ne, Member.get_set_self, Nat.zero_mod]
  · simp (disch := decide) only [Member.get_set_of_ne]
    exact Member.get_set_of_lt (lt_width _ (by omega) rfl)
  · simp (disch := decide) only [Member.get_set_of_ne]
    exact Member.get_set_of_lt (by decide)
  · simp (disch := decide) only [Member.get_set_of_ne]
    exact Member.get_set_of_lt (lt_width32 _ hsmall rfl)
  · exact Member.get_set_of_lt (lt_width32 _ (by omega) rfl)
  · simp (disch := first | decide | omega) only [Member.get_set_of_ne, Member.get_set_of_apart]
  · simp (disch := omega) only [Member.get_set_of_apart]
    exact hfirst
  · exact fun h => absurd rfl h
  · exact fun h => absurd rfl h
  · intro x hx
    rw [Touched] at hx
    simp (disch := omega) only [Member.set_of_apart]
    exact Member.set_of_outside (by simp only [Major.first]; omega)

theorem caseFront_spec (hc : c.addr = maj + 40) (hpos : 0 < maj)
    (hfirst : Major.first.get s.mem maj = n) (hn : c.addr + c.len ≤ n) (hb : n < 2 ^ 64) :
    ∃ m', caseFront c.size c.req maj s = served s m' c ∧ Placed s.mem m' maj 0 n c := by
  have hlen := c.len_eq
  have hroom := c.room_le
  have hsmall := c.small
  have hptr := c.ptr_bounds
  have haddr : maj + recordSize = c.addr := hc.symm
  have hback : ∀ m, Minor.prev.get (Minor.prev.set m n c.addr) n = c.addr := fun m =>
    Member.get_set_of_lt (lt_width _ (by omega) rfl)
  have hfront : ∀ m, Major.first.get (Major.first.set m maj c.addr) maj = c.addr := fun m =>
    Member.get_set_of_lt (lt_width _ (by omega) rfl)
  have hkeep : ∀ m v, Minor.prev.get (Minor.next.set m c.addr v) n = Minor.prev.get m n :=
    fun m v => Member.get_set_of_apart (by omega)
  simp only [caseFront, hfirst, haddr, hback, hkeep, hfront, handOut]
  refine ⟨_, rfl, Recorded.placed ?_ (by omega) (.inl rfl) (.inr ⟨by omega, .inr hn⟩)⟩
  constructor
  · simp (disch := decide) only [Member.get_set_of_ne, Member.get_set_self, Nat.zero_mod]
  · simp (disch := first | decide | omega) only [Member.get_set_of_ne, Member.get_set_of_apart]
    exact Member.get_set_of_lt (lt_width _ hb rfl)
  · simp (disch := decide) only [Member.get_set_of_ne]
    exact Member.get_set_of_lt (lt_width _ (by omega) rfl)
  · simp (disch := decide) only [Member.get_set_of_ne]
    exact Member.get_set_of_lt (by decide)
  · simp (disch := decide) only [Member.get_set_of_ne]
    exact Member.get_set_of_lt (lt_width32 _ hsmall rfl)
  · exact Member.get_set_of_lt (lt_width32 _ (by omega) rfl)
  · simp (disch := first | decide | omega) only [Member.get_set_of_ne, Member.get_set_of_apart]
  · simp (disch := omega) only [Member.get_set_of_apart]
    exact hfront _
  · exact fun h => absurd rfl h
  · intro _
    simp (disch := omega) only [Member.get_set_of_apart]
    exact hback _
  · intro x hx
    rw [Touched] at hx
    simp (disch := omega) only [Member.set_of_apart]
    rw [Member.set_of_outside (by simp only [Major.first]; omega)]
    simp (disch := omega) only [Member.set_of_apart]
    exact Member.set_of_outside (by simp only [Minor.prev]; omega)

theorem caseEnd_spec (hc : c.addr = p + 40 + Minor.size.get s.mem p) (hpos : 0 < maj)
    (hp : maj + 40 ≤ p) (hb : c.addr + c.len ≤ 2 ^ 64) :
    ∃ m', caseEnd c.size c.req maj p s = served s m' c ∧ Placed s.mem m' maj p 0 c := by
  have hlen := c.len_eq
  have hroom := c.room_le
  have hsmall := c.small
  have hptr := c.ptr_bounds
  have haddr : p + recordSize + Minor.size.get s.mem p = c.addr := hc.symm
  have hnext : ∀ m, Minor.next.get (Minor.next.set m p c.addr) p = c.addr := fun m =>
    Member.get_set_of_lt (lt_width _ (by omega) rfl)
  have hkeep : ∀ m v, Minor.next.get (Minor.prev.set m c.addr v) p = Minor.next.get m p :=
    fun m v => Member.get_set_of_apart (by omega)
  simp only [caseEnd, haddr, hnext, hkeep, handOut]
  refine ⟨_, rfl, Recorded.placed ?_ (by omega) (.inr ⟨hp, .inl (by omega)⟩) (.inl rfl)⟩
  constructor
  · simp (disch := decide) only [Member.get_set_of_ne]
    exact Member.get_set_of_lt (lt_width _ (by omega) rfl)
  · simp (disch := decide) only [Member.get_set_of_ne, Member.get_set_self, Nat.zero_mod]
  · simp (disch := decide) only [Member.get_set_of_ne]
    exact Member.get_set_of_lt (lt_width _ (by omega) rfl)
  · simp (disch := decide) only [Member.get_set_of_ne]
    exact Member.get_set_of_lt (by decide)
  · simp (disch := decide) only [Member.get_set_of_ne]
    exact Member.get_set_of_lt (lt_width32 _ hsmall rfl)
  · exact Member.get_set_of_lt (lt_width32 _ (by omega) rfl)
  · simp (disch := omega) only [Member.get_set_of_apart]
  · rw [if_neg (by omega)]
    simp (disch := omega) only [Member.get_set_of_apart]
  · intro _
    simp (disch := omega) only [Member.get_set_of_apart]
    exact hnext _
  · exact fun h => absurd rfl h
  · intro x hx
    rw [Touched] at hx
    simp (disch := omega) only [Member.set_of_apart]
    exact Member.set_of_outside (by simp only [Minor.next]; omega)

theorem caseBetween_spec (hc : c.addr = p + 40 + Minor.size.get s.mem p) (hpos : 0 < maj)
    (hp : maj + 40 ≤ p) (hnext : Minor.next.get s.mem p = n) (hn : c.addr + c.len ≤ n)
    (hb : n < 2 ^ 64) :
    ∃ m', caseBetween c.size c.req maj p s = served s m' c ∧ Placed s.mem m' maj p n c := by
  have hlen := c.len_eq
  have hroom := c.room_le
  have hsmall := c.small
  have hptr := c.ptr_bounds
  have haddr : p + recordSize + Minor.size.get s.mem p = c.addr := hc.symm
  simp only [caseBetween, haddr, handOut]
  simp (disch := omega) only [Member.get_set_of_apart, hnext]
  refine ⟨_, rfl, Recorded.placed ?_ (by omega) (.inr ⟨hp, .inl (by omega)⟩)
    (.inr ⟨by omega, .inr hn⟩)⟩
  constructor
  · simp (disch := first | decide | omega) only [Member.get_set_of_ne, Member.get_set_of_apart]
    exact Member.get_set_of_lt (lt_width _ (by omega) rfl)
  · simp (disch := first | decide | omega) only [Member.get_set_of_ne, Member.get_set_of_apart]
    exact Member.get_set_of_lt (lt_width _ hb rfl)
  · simp (disch := omega) only [Member.get_set_of_apart]
    exact Member.get_set_of_lt (lt_width _ (by omega) rfl)
  · simp (disch := first | decide | omega) only [Member.get_set_of_ne, Member.get_set_of_apart]
    exact Member.get_set_of_lt (by decide)
  · simp (disch := first | decide | omega) only [Member.get_set_of_ne, Member.get_set_of_apart]
    exact Member.get_set_of_lt (lt_width32 _ hsmall rfl)
  · simp (disch := first | decide | omega) only [Member.get_set_of_ne, Member.get_set_of_apart]
    exact Member.get_set_of_lt (lt_width32 _ (by omega) rfl)
  · simp (disch := omega) only [Member.get_set_of_apart]
  · rw [if_neg (by omega)]
    simp (disch := omega) only [Member.get_set_of_apart]
  · intro _
    exact Member.get_set_of_lt (lt_width _ (by omega) rfl)
  · intro _
    simp (disch := omega) only [Member.get_set_of_apart]
    exact Member.get_set_of_lt (lt_width _ (by omega) rfl)
  · intro x hx
    rw [Touched] at hx
    rw [Member.set_of_outside (by simp only [Minor.next]; omega),
      Member.set_of_outside (by simp only [Minor.prev]; omega)]
    simp (disch := omega) only [Member.set_of_apart]

end

end Liballoc

end BootableKernel
