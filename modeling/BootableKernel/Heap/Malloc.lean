import BootableKernel.Heap.Grow

/-!
# `kmalloc`

The loop over the majors starts at the best bet, if that has room, and goes on from the root
when it reaches the end of the list. Every block is looked at before pages are asked for, and
a block that is skipped for lack of space has no gap that is large enough. So a request takes
pages only if no gap of the heap holds it, and is refused only if the hook has none.

`Allocated` is what a caller may rely on, whatever way the request was served.
-/

namespace BootableKernel

namespace Liballoc

open Arena Links

variable {σ : Type} {K : Hooks σ} {P : Pager K}

/-- A request for `req` bytes, which take `size` with the space for the alignment, was
answered with `p`; a null pointer means that it was refused. -/
structure Allocated (P : Pager K) (s : Heap σ) (Bs : List Block) (size req p : ℕ) (s' : Heap σ)
    (Bs' : List Block) : Prop where
  sound : Sound P s' Bs'
  undisturbed : Undisturbed (P.own s.pager) (P.own s'.pager ∪ {p}) s.mem s'.mem Bs Bs'
  cell : p ≠ 0 → ∃ c ∈ allCells Bs', c.ptr = p ∧ c.size = size ∧ c.req = req
  owned : p ∉ P.own s'.pager
  full : Full Bs → Full Bs'
  asked : s'.pager = s.pager ∨ ∃ s₀ q t, s₀.pager = s.pager ∧ K.alloc (pagesFor size) s₀ = (q, t) ∧
    s'.pager = t.pager ∧ (p = 0 ↔ q = 0)
  fits : (∃ b ∈ Bs, b.gap size ≠ none) → p ≠ 0 ∧ s'.pager = s.pager

theorem Allocated.congr {s s₁ s' : Heap σ} {Bs Bs' : List Block} {size req p : ℕ}
    (h : Allocated P s Bs size req p s' Bs') (hm : s.mem = s₁.mem) (hp : s.pager = s₁.pager) :
    Allocated P s₁ Bs size req p s' Bs' := by
  obtain ⟨h₁, h₂, h₃, h₄, h₅, h₆, h₇⟩ := h
  rw [hm, hp] at h₂
  rw [hp] at h₆ h₇
  exact ⟨h₁, h₂, h₃, h₄, h₅, h₆, h₇⟩

theorem mem_allCells {Bs : List Block} {c : Cell} :
    c ∈ allCells Bs ↔ ∃ b ∈ Bs, c ∈ b.cells := List.mem_flatMap

section
variable {s : Heap σ} {L R : List Block} {b : Block} {l r : List Cell} {c : Cell} {m : Bytes}

theorem mem_allCells_insert (hg : b.Around l r c) {d : Cell} :
    d ∈ allCells (L ++ b.insert l r c hg :: R) ↔ d = c ∨ d ∈ allCells (L ++ b :: R) := by
  simp only [allCells, List.flatMap_append, List.flatMap_cons, cells_insert, hg.cells,
    List.mem_append, List.mem_cons]
  tauto

/-- The block that serves a request is not empty afterwards. -/
theorem full_insert (hg : b.Around l r c) (h : Full (L ++ R)) :
    Full (L ++ b.insert l r c hg :: R) := by
  intro a ha
  rcases mem_middle ha with rfl | ha
  · simp
  · exact h a ha

/-- Where the old cells are, with respect to a new one. -/
theorem Holds.apart_new (h : Holds s (L ++ b :: R)) (hg : b.Around l r c) {d : Cell}
    (hd : d ∈ allCells (L ++ b :: R)) :
    (d ∈ l ++ r ∨ d.addr + d.len ≤ b.addr ∨ b.stop ≤ d.addr) ∧
      (d.addr + d.len ≤ c.addr ∨ c.addr + c.len ≤ d.addr) := by
  obtain ⟨B, hB, hdB⟩ := mem_allCells.mp hd
  rcases mem_middle hB with rfl | hB
  · rw [hg.cells] at hdB
    exact ⟨.inl hdB, hg.apart hdB⟩
  · have hdb := B.cell_bounds hdB
    have hcb := hg.base_le
    rcases h.apart_of_mem hB with hap | hap
    · exact ⟨.inr (.inl (by omega)), .inl (by omega)⟩
    · exact ⟨.inr (.inr (by omega)), .inr (by omega)⟩

theorem Holds.ptr_ne (h : Holds s (L ++ b :: R)) (hg : b.Around l r c) {d : Cell}
    (hd : d ∈ allCells (L ++ b :: R)) : d.ptr ≠ c.ptr := by
  have hap := (h.apart_new hg hd).2
  have hdp := d.ptr_bounds
  have hcp := c.ptr_bounds
  have hdl := d.ptr_lt
  have hcl := c.ptr_lt
  have hdroom := d.room_le
  have hcroom := c.room_le
  rw [Cell.len_eq, Cell.len_eq] at hap
  omega

/-- The old cells keep their contents. -/
theorem Holds.bytes_new (h : Holds s (L ++ b :: R)) (hg : b.Around l r c)
    (hP : Placed s.mem m b.addr (last 0 (cellAddrs l)) (head 0 (cellAddrs r)) c) {d : Cell}
    (hd : d ∈ allCells (L ++ b :: R)) {i : ℕ} (hi : i < d.req) :
    m.byte (d.ptr + i) = s.mem.byte (d.ptr + i) := by
  have hp := d.ptr_bounds
  obtain ⟨hside, hap⟩ := h.apart_new hg hd
  rcases hside with hd' | hd'
  · exact hg.byte_eq hP.frame hd' (by omega) (by omega)
  · apply hP.frame
    intro ht
    have := hg.touched_bounds ht
    omega

/-- **A request that is served from a gap.** -/
theorem Sound.served (h : Sound P s (L ++ b :: R)) (hg : b.Around l r c)
    (hP : Placed s.mem m b.addr (last 0 (cellAddrs l)) (head 0 (cellAddrs r)) c) :
    Allocated P s (L ++ b :: R) c.size c.req c.ptr (served s m c).2
      (L ++ b.insert l r c hg :: R) := by
  have hcp := c.ptr_bounds
  constructor
  · refine ⟨h.holds.served hg hP, ?_, fun q hq => ?_⟩
    · have hspans : spans (L ++ b.insert l r c hg :: R) = spans (L ++ b :: R) := by
        simp [spans]
      rw [hspans]
      exact h.good
    · obtain ⟨d, hd, rfl⟩ := List.mem_map.mp (h.own hq)
      exact List.mem_map_of_mem ((mem_allCells_insert hg).mpr (.inr hd))
  · constructor
    · exact fun d hd _ => (mem_allCells_insert hg).mpr (.inr hd)
    · rintro d hd ho (hc | hc)
      · exact ho hc
      · exact h.holds.ptr_ne hg hd hc
    · intro d hd ho
      rw [Set.mem_union, not_or] at ho
      rcases (mem_allCells_insert hg).mp hd with rfl | hd
      · exact absurd rfl ho.2
      · exact ⟨hd, ho.1⟩
    · exact fun d hd _ i hi => h.holds.bytes_new hg hP hd hi
  · exact fun _ => ⟨c, (mem_allCells_insert hg).mpr (.inl rfl), rfl, rfl, rfl⟩
  · intro hq
    obtain ⟨d, hd, heq⟩ := List.mem_map.mp (h.own hq)
    exact h.holds.ptr_ne hg hd heq
  · exact fun hf => full_insert hg fun a ha => hf a (mem_middle_of_ne ha)
  · exact .inl rfl
  · exact fun _ => ⟨by omega, rfl⟩

end

/-! ## One block -/

section
variable {s : Heap σ} {L R : List Block} {b : Block} {size req : ℕ}

/-- A block without enough space has no gap that is large enough. -/
theorem gap_eq_none (h : b.pages * pageBytes < b.usage + (size + 40)) : b.gap size = none := by
  by_contra hc
  obtain ⟨⟨l, r⟩, hfind⟩ := Option.ne_none_iff_exists'.mp hc
  obtain ⟨hcells, hgap⟩ := firstGap_spec hfind
  have hle := Packed.used_add_le (hcells ▸ b.packed) hgap
  rw [← hcells, Block.stop] at hle
  rw [Block.usage] at h
  omega

/-- A new block has room for the request it was made for. -/
theorem gap_of_empty (hcells : b.cells = []) (hpages : b.pages = pagesFor size)
    (hsize : size ≤ maxSize) :
    b.gap size ≠ none ∧ b.usage + (size + 40) ≤ b.pages * pageBytes := by
  have hp := (pagesFor_spec hsize).1
  rw [← hpages] at hp
  constructor
  · rw [Block.gap, hcells, firstGap, if_pos]
    · simp
    · rw [Block.stop, recordSize_eq]
      omega
  · rw [Block.usage, hcells, used_nil, recordSize_eq]
    omega

/-- The answer to a request that block `b` serves. -/
def Serves (P : Pager K) (s : Heap σ) (L : List Block) (b : Block) (R : List Block) (size req : ℕ)
    (out : Option (ℕ × Heap σ)) : Prop :=
  ∃ p s' Bs', out = some (p, s') ∧ Allocated P s (L ++ b :: R) size req p s' Bs' ∧
    (Full (L ++ R) → Full Bs')

theorem settle_found (h : Sound P s (L ++ b :: R)) (hreq : req + (alignment + alignment) ≤ size)
    (hsmall : size < 2 ^ 32) (hgap : b.gap size ≠ none)
    (hroom : b.usage + (size + 40) ≤ b.pages * pageBytes) {fuel : ℕ}
    (hfuel : b.cells.length < fuel) (startedBet : Bool)
    (again : ℕ → Bool → Heap σ → Option (ℕ × Heap σ)) :
    Serves P s L b R size req (settle K size req fuel startedBet again b.addr s) := by
  have hin : b.In s.mem := h.holds.records b (List.mem_append_right L List.mem_cons_self)
  have hplace := placeIn_spec (s := s) hreq hsmall hin hroom fuel hfuel
  obtain ⟨⟨l, r⟩, hfind⟩ := Option.ne_none_iff_exists'.mp hgap
  rw [hfind] at hplace
  obtain ⟨c, m, rfl, rfl, hg, hout, hP⟩ := hplace
  refine ⟨_, _, _, ?_, h.served hg hP, full_insert hg⟩
  rw [settle, hout]

theorem settle_full (h : Sound P s (L ++ b :: R)) (hreq : req + (alignment + alignment) ≤ size)
    (hsmall : size < 2 ^ 32) (hgap : b.gap size = none)
    (hroom : b.usage + (size + 40) ≤ b.pages * pageBytes) {fuel : ℕ}
    (hfuel : b.cells.length < fuel) : placeIn size req fuel b.addr s = some none := by
  have hin : b.In s.mem := h.holds.records b (List.mem_append_right L List.mem_cons_self)
  have hplace := placeIn_spec (s := s) hreq hsmall hin hroom fuel hfuel
  rw [hgap] at hplace
  exact hplace

/-- The space that is left in a block, as the code computes it. -/
theorem freeIn_eq (h : b.In s.mem) : freeIn s b.addr = b.pages * pageBytes - b.usage := by
  rw [freeIn, h.size, h.usage, sub32_eq b.usage_le b.small]

end

/-! ## A new block serves the request -/

theorem Cell.ptr_ne_zero (c : Cell) : c.ptr ≠ 0 := by
  have := c.ptr_bounds
  omega

/-- No cell is at the null pointer. -/
theorem Undisturbed.null {own own' : Set ℕ} {m m' : Bytes} {Bs Bs' : List Block}
    (h : Undisturbed own own' m m' Bs Bs') : Undisturbed own (own' ∪ {0}) m m' Bs Bs' := by
  refine ⟨h.mem, ?_, fun c hc ho => h.old c hc fun hq => ho (.inl hq), h.bytes⟩
  rintro c hc ho (hq | hq)
  · exact h.free c hc ho hq
  · exact c.ptr_ne_zero hq

theorem allocated_refused {s s' : Heap σ} {Bs Bs' : List Block} {size req : ℕ}
    (hG : Grown P s Bs size 0 s' Bs') (hnone : ∀ b ∈ Bs, b.gap size = none) :
    Allocated P s Bs size req 0 s' Bs' := by
  have hsound := hG.refused rfl
  refine ⟨hsound, hG.undisturbed.null, fun h0 => absurd rfl h0, fun hq => ?_, hG.pruned.full, ?_, ?_⟩
  · obtain ⟨c, -, hc⟩ := List.mem_map.mp (hsound.own hq)
    exact c.ptr_ne_zero hc
  · obtain ⟨t, ha, hpager⟩ := hG.asked
    exact .inr ⟨s, 0, t, rfl, ha, hpager, Iff.rfl⟩
  · rintro ⟨b, hb, hgap⟩
    exact absurd (hnone b hb) hgap

theorem Grown.allocated {s s₁ s' : Heap σ} {Bs Bs' Bs'' : List Block} {size req p q : ℕ}
    {nb : Block} (hG : Grown P s Bs size p s₁ Bs') (hnone : ∀ b ∈ Bs, b.gap size = none)
    (hp : p ≠ 0) (hcells : nb.cells = []) (hgap : nb.gap size ≠ none)
    (h : Allocated P s₁ (Bs' ++ [nb]) size req q s' Bs'')
    (hfull : Full Bs' → Full Bs'') : Allocated P s Bs size req q s' Bs'' := by
  have hund : Undisturbed (P.own s.pager) (P.own s₁.pager) s.mem s₁.mem Bs (Bs' ++ [nb]) := by
    have hall : allCells (Bs' ++ [nb]) = allCells Bs' := by simp [allCells, hcells]
    have hund := hG.undisturbed
    refine ⟨?_, hund.free, ?_, hund.bytes⟩
    · rw [hall]
      exact hund.mem
    · rw [hall]
      exact hund.old
  obtain ⟨hq, hpager⟩ := h.fits ⟨nb, List.mem_append_right Bs' List.mem_cons_self, hgap⟩
  obtain ⟨t, ha, hpager'⟩ := hG.asked
  refine ⟨h.sound, hund.trans h.undisturbed, h.cell, h.owned, fun hf => hfull (hG.pruned.full hf),
    .inr ⟨s, p, t, rfl, ha, hpager.trans hpager', iff_of_false hq hp⟩, ?_⟩
  rintro ⟨b, hb, hgap⟩
  exact absurd (hnone b hb) hgap

/-! ## The loop over the majors -/

section
variable {size req : ℕ}

/-- The answer to a request, in some state and with some blocks. -/
def Answers (P : Pager K) (s : Heap σ) (Bs : List Block) (size req : ℕ)
    (out : Option (ℕ × Heap σ)) : Prop :=
  ∃ p s' Bs', out = some (p, s') ∧ Allocated P s Bs size req p s' Bs'

theorem Serves.answers {s : Heap σ} {L R : List Block} {b : Block} {out : Option (ℕ × Heap σ)}
    (h : Serves P s L b R size req out) : Answers P s (L ++ b :: R) size req out := by
  obtain ⟨p, s', Bs', hout, halloc, -⟩ := h
  exact ⟨p, s', Bs', hout, halloc⟩

theorem maxSize_lt (h : size ≤ maxSize) : size < 2 ^ 32 := by
  rw [maxSize] at h
  omega

/-- Pages were asked for behind the last block; `onward` goes on with a new block. -/
theorem answers_grow {s : Heap σ} {Bs : List Block} (h : Sound P s Bs) (hne : Bs ≠ [])
    (hsize : size ≤ maxSize) (hnone : ∀ b ∈ Bs, b.gap size = none)
    (onward : ℕ → Heap σ → Option (ℕ × Heap σ))
    (honward : ∀ {nb : Block} {s₁ : Heap σ} {Bs' : List Block}, nb.cells = [] →
      nb.pages = pagesFor size → Sound P s₁ (Bs' ++ [nb]) →
      Serves P s₁ Bs' nb [] size req (onward nb.addr s₁)) :
    Answers P s Bs size req
      (match growAt K size (last 0 (blockAddrs Bs)) s with
        | (new, s) => if new = 0 then some (0, s) else onward new s) := by
  obtain ⟨p, s₁, hr⟩ : ∃ p s₁, growAt K size (last 0 (blockAddrs Bs)) s = (p, s₁) := ⟨_, _, rfl⟩
  obtain ⟨Bs', hG⟩ := growAt_spec h hne hsize hr
  rw [hr]
  by_cases h0 : p = 0
  · subst h0
    exact ⟨0, s₁, Bs', rfl, allocated_refused hG hnone⟩
  · obtain ⟨nb, rfl, hpages, hcells, hsound⟩ := hG.given h0
    obtain ⟨q, s₂, Bs'', hout, halloc, hfull⟩ := honward hcells hpages hsound
    rw [List.append_nil] at hfull
    refine ⟨q, s₂, Bs'', ?_, hG.allocated hnone h0 hcells (gap_of_empty hcells hpages hsize).1 halloc
      hfull⟩
    simp only [if_neg h0, hout]

/-- A turn of the loop, if the turns after it are right. -/
theorem visit_spec {s : Heap σ} {L R : List Block} {b : Block} {fuel : ℕ} {startedBet : Bool}
    (h : Sound P s (L ++ b :: R)) (hreq : req + (alignment + alignment) ≤ size)
    (hsize : size ≤ maxSize) (hcells : b.cells.length < fuel)
    (hseen : startedBet = false → ∀ a ∈ L, a.gap size = none)
    (again : ℕ → Bool → Heap σ → Option (ℕ × Heap σ))
    (hnext : b.gap size = none → R ≠ [] →
      Answers P s (L ++ b :: R) size req (again (head 0 (blockAddrs R)) startedBet s))
    (hroot : startedBet = true →
      Answers P s (L ++ b :: R) size req (again s.memRoot false s))
    (hnew : ∀ {nb : Block} {s₁ : Heap σ} {Bs' : List Block}, nb.cells = [] →
      nb.pages = pagesFor size → Sound P s₁ (Bs' ++ [nb]) →
      Serves P s₁ Bs' nb [] size req (again nb.addr false s₁)) :
    Answers P s (L ++ b :: R) size req (visit K size req fuel startedBet again b.addr s) := by
  have hsmall := maxSize_lt hsize
  have hin : b.In s.mem := h.holds.records b (List.mem_append_right L List.mem_cons_self)
  have hlink : Major.next.get s.mem b.addr = head 0 (blockAddrs R) := by
    have hlinked := h.holds.majors
    rw [blockAddrs, List.map_append, List.map_cons] at hlinked
    exact hlinked.mid.2
  -- what happens when the block has no gap: the next one, the root, or a new one
  have onward : b.gap size = none → ∀ last' : ℕ → Heap σ → Option (ℕ × Heap σ),
      (startedBet = false → ∀ {nb : Block} {s₁ : Heap σ} {Bs' : List Block}, nb.cells = [] →
        nb.pages = pagesFor size → Sound P s₁ (Bs' ++ [nb]) →
        Serves P s₁ Bs' nb [] size req (last' nb.addr s₁)) →
      Answers P s (L ++ b :: R) size req
        (if head 0 (blockAddrs R) ≠ 0 then again (head 0 (blockAddrs R)) startedBet s
        else if startedBet then again s.memRoot false s
        else match growAt K size b.addr s with
          | (new, s) => if new = 0 then some (0, s) else last' new s) := by
    intro hgap last' hlast
    cases R with
    | cons d R =>
        rw [if_pos (show head 0 (blockAddrs (d :: R)) ≠ 0 from d.pos.ne')]
        exact hnext hgap (List.cons_ne_nil d R)
    | nil =>
        rw [if_neg (fun hc => hc rfl)]
        cases hbet : startedBet with
        | true =>
            rw [if_pos rfl]
            exact hroot hbet
        | false =>
            rw [if_neg Bool.false_ne_true]
            have hb : b.addr = last 0 (blockAddrs (L ++ [b])) := by simp [blockAddrs]
            rw [hb]
            refine answers_grow h (by simp) hsize (fun a ha => ?_) last' (hlast hbet)
            rcases mem_middle ha with rfl | ha
            · exact hgap
            · rw [List.append_nil] at ha
              exact hseen hbet a ha
  have hfound : ∀ {L R : List Block} {b : Block} {s : Heap σ}, Sound P s (L ++ b :: R) →
      b.gap size ≠ none → b.usage + (size + 40) ≤ b.pages * pageBytes → b.cells.length < fuel →
      Serves P s L b R size req (settle K size req fuel startedBet again b.addr s) :=
    fun h hgap hroom hfuel => settle_found h hreq hsmall hgap hroom hfuel startedBet again
  have hle := b.usage_le
  rw [visit, freeIn_eq hin, need_eq hsmall, hlink]
  by_cases hspace : b.pages * pageBytes - b.usage < size + 40
  · rw [if_pos hspace]
    refine onward (gap_eq_none (by omega)) _ fun _ {nb s₁ Bs'} hnb hpages hs => ?_
    have hroom := gap_of_empty hnb hpages hsize
    exact hfound hs hroom.1 hroom.2 (by rw [hnb]; exact Nat.zero_lt_of_lt hcells)
  · rw [if_neg hspace]
    by_cases hgap : b.gap size = none
    · rw [settle, settle_full h hreq hsmall hgap (by omega) hcells, hlink]
      refine onward hgap (fun new t => again new startedBet t) fun hbet {nb s₁ Bs'} hnb hpages hs => ?_
      rw [hbet]
      exact hnew hnb hpages hs
    · exact (hfound h hgap (by omega) hcells).answers

/-- The blocks with another best bet among them. -/
theorem Sound.bestBet {s : Heap σ} {Bs : List Block} (h : Sound P s Bs) {b : Block} (hb : b ∈ Bs) :
    Sound P { s with bestBet := b.addr } Bs :=
  ⟨h.holds.globals rfl rfl rfl rfl (.inr (List.mem_map_of_mem hb)), h.good, h.own⟩

theorem Answers.congr {s s₁ : Heap σ} {Bs : List Block} {out : Option (ℕ × Heap σ)}
    (h : Answers P s Bs size req out) (hm : s.mem = s₁.mem) (hp : s.pager = s₁.pager) :
    Answers P s₁ Bs size req out := by
  obtain ⟨p, s', Bs', hout, halloc⟩ := h
  exact ⟨p, s', Bs', hout, halloc.congr hm hp⟩

/-- The loop at a new block, which has room. -/
theorem searchMajors_new (hreq : req + (alignment + alignment) ≤ size) (hsize : size ≤ maxSize)
    {s : Heap σ} {Bs : List Block} {nb : Block} (hcells : nb.cells = [])
    (hpages : nb.pages = pagesFor size) (h : Sound P s (Bs ++ [nb])) {fuel : ℕ}
    (hfuel : 2 ≤ fuel) (startedBet : Bool) (bestSize : ℕ) :
    Serves P s Bs nb [] size req (searchMajors K size req fuel nb.addr startedBet bestSize s) := by
  obtain ⟨fuel, rfl⟩ : ∃ k, fuel = k + 1 := ⟨fuel - 1, by omega⟩
  obtain ⟨hgap, hroom⟩ := gap_of_empty hcells hpages hsize
  have hmem : nb ∈ Bs ++ [nb] := List.mem_append_right Bs List.mem_cons_self
  have hlen : nb.cells.length < fuel := by
    rw [hcells, List.length_nil]
    omega
  have turn : ∀ {t : Heap σ} (again : ℕ → Bool → Heap σ → Option (ℕ × Heap σ)),
      Sound P t (Bs ++ [nb]) →
      Serves P t Bs nb [] size req (visit K size req fuel startedBet again nb.addr t) := by
    intro t again ht
    rw [visit, freeIn_eq (ht.holds.records nb hmem), need_eq (maxSize_lt hsize),
      if_neg (by omega)]
    exact settle_found ht hreq (maxSize_lt hsize) hgap hroom hlen startedBet again
  rw [searchMajors, if_neg nb.pos.ne']
  split
  · obtain ⟨p, s', Bs', hout, halloc, hfull⟩ := turn
      (fun next startedBet t => searchMajors K size req fuel next startedBet (freeIn s nb.addr) t)
      (h.bestBet hmem)
    exact ⟨p, s', Bs', hout, halloc.congr rfl rfl, hfull⟩
  · exact turn _ h

/-- **The loop over the majors.** The blocks before the present one have no gap, unless the
loop started at the best bet and will come back to them. -/
theorem searchMajors_spec (hreq : req + (alignment + alignment) ≤ size) (hsize : size ≤ maxSize)
    {w : ℕ} (fuel : ℕ) {s : Heap σ} {L R : List Block} {b : Block} (startedBet : Bool)
    (bestSize : ℕ) (h : Sound P s (L ++ b :: R))
    (hcells : ∀ a ∈ L ++ b :: R, a.cells.length < w)
    (hseen : startedBet = false → ∀ a ∈ L, a.gap size = none)
    (hfuel : R.length + (if startedBet then (L ++ b :: R).length + 1 else 0) + w + 2 ≤ fuel) :
    Answers P s (L ++ b :: R) size req
      (searchMajors K size req fuel b.addr startedBet bestSize s) := by
  induction fuel generalizing s L R b startedBet bestSize with
  | zero => omega
  | succ fuel ih =>
      have hbmem : b ∈ L ++ b :: R := List.mem_append_right L List.mem_cons_self
      -- one turn, in a state that differs from `s` in the best bet at most
      have turn : ∀ {t : Heap σ} (best : ℕ), Sound P t (L ++ b :: R) →
          Answers P t (L ++ b :: R) size req (visit K size req fuel startedBet
            (fun next startedBet t => searchMajors K size req fuel next startedBet best t)
            b.addr t) := by
        intro t best ht
        refine visit_spec ht hreq hsize (by have := hcells b hbmem; omega) hseen _ ?_ ?_ ?_
        · intro hgap hne
          obtain ⟨d, R, rfl⟩ := List.exists_cons_of_ne_nil hne
          have heq : L ++ b :: d :: R = (L ++ [b]) ++ d :: R := by simp
          rw [heq] at ht hcells ⊢
          refine ih startedBet best ht hcells (fun hbet a ha => ?_) ?_
          · rcases List.mem_append.mp ha with ha | ha
            · exact hseen hbet a ha
            · rwa [List.mem_singleton.mp ha]
          · cases startedBet <;>
              simp only [List.length_append, List.length_cons, List.length_nil, if_true,
                Bool.false_eq_true, if_false] at hfuel ⊢ <;> omega
        · intro hbet
          rw [hbet, if_pos rfl] at hfuel
          cases L with
          | nil =>
              rw [ht.holds.root]
              exact ih false best (L := []) ht hcells (fun _ a ha => absurd ha List.not_mem_nil)
                (by simp only [List.nil_append, List.length_cons] at hfuel ⊢; simp; omega)
          | cons a L =>
              rw [ht.holds.root]
              exact ih false best (L := []) (b := a) (R := L ++ b :: R) ht hcells
                (fun _ a ha => absurd ha List.not_mem_nil)
                (by simp only [List.cons_append, List.length_cons, List.length_append] at hfuel ⊢
                    simp
                    omega)
        · intro nb s₁ Bs' hnb hpages hs
          exact searchMajors_new hreq hsize hnb hpages hs (by have := hcells b hbmem; omega) false
            best
      rw [searchMajors, if_neg b.pos.ne']
      split
      · exact (turn _ (h.bestBet hbmem)).congr rfl rfl
      · exact turn _ h

/-- Turns of the two loops that a request takes at most. -/
def turns (Bs : List Block) : ℕ := 2 * Bs.length + (allCells Bs).length + 6

theorem length_lt_turns {Bs : List Block} {b : Block} (hb : b ∈ Bs) :
    b.cells.length < (allCells Bs).length + 1 := by
  obtain ⟨L, R, rfl⟩ := List.append_of_mem hb
  simp only [allCells, List.flatMap_append, List.flatMap_cons, List.length_append]
  omega

/-- The search, from the best bet or from the root. -/
theorem searchFrom_spec (hreq : req + (alignment + alignment) ≤ size) (hsize : size ≤ maxSize)
    {s : Heap σ} {Bs : List Block} (h : Sound P s Bs) (hne : Bs ≠ []) {fuel : ℕ}
    (hfuel : turns Bs ≤ fuel + 2) : Answers P s Bs size req (searchFrom K fuel size req s) := by
  have hcells : ∀ a ∈ Bs, a.cells.length < (allCells Bs).length + 1 := fun a => length_lt_turns
  rw [turns] at hfuel
  have root : ∀ bestSize, Answers P s Bs size req
      (searchMajors K size req fuel s.memRoot false bestSize s) := by
    intro bestSize
    obtain ⟨b, R, rfl⟩ := List.exists_cons_of_ne_nil hne
    rw [h.holds.root]
    refine searchMajors_spec (L := []) hreq hsize fuel false bestSize h hcells
      (fun _ a ha => absurd ha List.not_mem_nil) ?_
    rw [List.length_cons] at hfuel
    simp only [Bool.false_eq_true, if_false]
    omega
  rw [searchFrom]
  split
  · exact root 0
  · rename_i hbet
    dsimp only
    split
    · obtain ⟨b, hb, heq⟩ := List.mem_map.mp (h.holds.bet.resolve_left hbet)
      obtain ⟨L, R, rfl⟩ := List.append_of_mem hb
      rw [← heq]
      refine searchMajors_spec hreq hsize fuel true _ h hcells (fun hc => absurd hc (by simp)) ?_
      simp only [List.length_append, List.length_cons, if_true] at hfuel ⊢
      omega
    · exact root _

/-- The search in a heap that has just got its first block. -/
theorem searchFrom_new (hreq : req + (alignment + alignment) ≤ size) (hsize : size ≤ maxSize)
    {s : Heap σ} {nb : Block} (hcells : nb.cells = []) (hpages : nb.pages = pagesFor size)
    (h : Sound P s [nb]) {fuel : ℕ} (hfuel : 2 ≤ fuel) :
    Serves P s [] nb [] size req (searchFrom K fuel size req s) := by
  have hroot : s.memRoot = nb.addr := h.holds.root
  have hnew : ∀ startedBet bestSize, Serves P s [] nb [] size req
      (searchMajors K size req fuel nb.addr startedBet bestSize s) :=
    searchMajors_new hreq hsize hcells hpages (show Sound P s ([] ++ [nb]) from h) hfuel
  rw [searchFrom, hroot]
  split
  · exact hnew false 0
  · rename_i hbet
    have hmem := h.holds.bet.resolve_left hbet
    rw [List.mem_singleton.mp hmem]
    dsimp only
    split
    · exact hnew true _
    · exact hnew false _

/-- **`kmalloc`, with the sizes computed.** -/
theorem kmallocSized_spec (hreq : req + (alignment + alignment) ≤ size) (hsize : size ≤ maxSize)
    {s : Heap σ} {Bs : List Block} (h : Sound P s Bs) {fuel : ℕ} (hfuel : turns Bs ≤ fuel) :
    Answers P s Bs size req (kmallocSized K fuel size req s) := by
  rw [kmallocSized]
  by_cases hne : Bs = []
  · subst hne
    have h0 : s.memRoot = 0 := h.holds.root
    obtain ⟨p, s₁, hr⟩ : ∃ p s₁, allocateNewPage K size s = (p, s₁) := ⟨_, _, rfl⟩
    have hG := firstPage_spec h hsize hr
    have hnone : ∀ b ∈ ([] : List Block), b.gap size = none := fun b hb =>
      absurd hb List.not_mem_nil
    rw [if_pos h0, hr]
    by_cases hp : p = 0
    · subst hp
      exact ⟨0, _, [], if_pos rfl, allocated_refused hG hnone⟩
    · obtain ⟨nb, rfl, hpages, hcells, hsound⟩ := hG.given hp
      have hfuel' : 2 ≤ fuel := by
        rw [turns] at hfuel
        omega
      obtain ⟨q, s₂, Bs₂, hout, halloc, hfull⟩ :=
        searchFrom_new hreq hsize hcells hpages hsound hfuel'
      exact ⟨q, s₂, Bs₂, (if_neg hp).trans hout, hG.allocated hnone hp hcells
        (gap_of_empty hcells hpages hsize).1 halloc hfull⟩
  · have h0 : s.memRoot ≠ 0 := by
      obtain ⟨b, R, rfl⟩ := List.exists_cons_of_ne_nil hne
      rw [h.holds.root]
      exact b.pos.ne'
    rw [if_neg h0]
    exact searchFrom_spec hreq hsize h hne (by omega)

theorem sizeFor_eq (h : req + 32 ≤ maxSize) : sizeFor req = req + 32 := by
  have hlt := maxSize_lt h
  rw [sizeFor, alignment_eq]
  omega

/-- **`kmalloc`.** -/
theorem kmalloc_answers (hreq : req + 32 ≤ maxSize) {s : Heap σ} {Bs : List Block}
    (h : Sound P s Bs) {fuel : ℕ} (hfuel : turns Bs ≤ fuel) :
    Answers P s Bs (req + 32) req (kmalloc K fuel req s) := by
  rw [kmalloc, sizeFor_eq hreq, if_neg (by omega)]
  exact kmallocSized_spec le_rfl hreq h hfuel

end

end Liballoc

end BootableKernel
