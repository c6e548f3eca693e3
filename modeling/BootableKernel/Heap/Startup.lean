import BootableKernel.Heap.Malloc

/-!
# Requests that take a new block

The first request finds no heap, and a large one may find no block with the space for it. In
both cases `kmalloc` asks for pages once, and serves the request at the start of the block it
makes of them. That is followed here to the address, for a hook of which no more is known than
what it does in the state at hand.
-/

namespace BootableKernel

namespace Liballoc

open Arena Links

variable {σ : Type} {K : Hooks σ} {s : Heap σ}

/-- The bytes outside of the blocks are not the allocator's. -/
theorem Holds.outside {Bs : List Block} (h : Holds s Bs) {m : Bytes}
    (hm : ∀ b ∈ Bs, ∀ x, b.addr ≤ x → x < b.stop → m.byte x = s.mem.byte x) (v : σ) :
    Holds { s with mem := m, pager := v } Bs := by
  have hlinks : ∀ (f : Member 40), ∀ a ∈ blockAddrs Bs, f.get m a = f.get s.mem a := by
    intro f a ha
    obtain ⟨b, hb, rfl⟩ := List.mem_map.mp ha
    have hrec := b.record_le
    have hfits := f.fits
    apply Member.get_congr
    exact fun x hx hx' => hm b hb x (by omega) (by omega)
  refine ⟨h.apart, h.root, h.majors.congr (hlinks _) (hlinks _), fun b hb => ?_, h.bet, h.allocated,
    h.inuse⟩
  apply (h.records b hb).congr
  intro x hx _
  exact hm b hb x hx.bounds.1 hx.bounds.2

/-- The block has not the space for a request that takes `size` bytes. -/
def Block.Lacks (b : Block) (size : ℕ) : Prop := b.pages * pageBytes < b.usage + (size + 40)

/-- The best bet does not matter to what the heap holds. -/
theorem Holds.bet_set {Bs : List Block} (h : Holds s Bs) {b : Block} (hb : b ∈ Bs) :
    Holds { s with bestBet := b.addr } Bs :=
  h.globals rfl rfl rfl rfl (.inr (List.mem_map_of_mem hb))

section
variable {size req : ℕ}

/-- What comes after a block that lacks the space: the next one, or pages behind the last. -/
theorem visit_lacking {L R : List Block} {b : Block} (h : Holds s (L ++ b :: R))
    (hsmall : size < 2 ^ 32) (hlack : b.Lacks size) (fuel : ℕ)
    (again : ℕ → Bool → Heap σ → Option (ℕ × Heap σ)) :
    visit K size req fuel false again b.addr s =
      if head 0 (blockAddrs R) ≠ 0 then again (head 0 (blockAddrs R)) false s
      else match growAt K size b.addr s with
        | (new, t) => if new = 0 then some (0, t) else settle K size req fuel false again new t := by
  have hin : b.In s.mem := h.records b (List.mem_append_right L List.mem_cons_self)
  have hnext : Major.next.get s.mem b.addr = head 0 (blockAddrs R) := by
    have hlinked := h.majors
    rw [blockAddrs, List.map_append, List.map_cons] at hlinked
    exact hlinked.mid.2
  rw [Block.Lacks] at hlack
  rw [visit, freeIn_eq hin, need_eq hsmall, if_pos (by omega), hnext]
  rfl

/-- The loop over the majors passes by the blocks that lack the space, and asks for pages
behind the last one. -/
theorem searchMajors_lacking (req : ℕ) (hsmall : size < 2 ^ 32) (fuel : ℕ) {R : List Block} :
    ∀ {s : Heap σ} {L : List Block} {b : Block} (bestSize : ℕ), Holds s (L ++ b :: R) →
      (∀ a ∈ b :: R, a.Lacks size) →
      ∃ bet again, searchMajors K size req (fuel + R.length + 1) b.addr false bestSize s =
          (match growAt K size (last 0 (blockAddrs (L ++ b :: R))) { s with bestBet := bet } with
            | (new, t) => if new = 0 then some (0, t)
              else settle K size req fuel false again new t) ∧
        (bet = s.bestBet ∨ bet ∈ blockAddrs (L ++ b :: R)) := by
  induction R with
  | nil =>
      intro s L b bestSize h hlack
      have hmem : b ∈ L ++ [b] := List.mem_append_right L List.mem_cons_self
      have hlast : last 0 (blockAddrs (L ++ [b])) = b.addr := by simp [blockAddrs]
      have hb := hlack b List.mem_cons_self
      rw [hlast, List.length_nil, Nat.add_zero, searchMajors, if_neg b.pos.ne']
      split
      · exact ⟨b.addr, _, visit_lacking (h.bet_set hmem) hsmall hb _ _,
          .inr (List.mem_map_of_mem hmem)⟩
      · exact ⟨s.bestBet, _, visit_lacking h hsmall hb _ _, .inl rfl⟩
  | cons d R ih =>
      intro s L b bestSize h hlack
      have hmem : b ∈ L ++ b :: d :: R := List.mem_append_right L List.mem_cons_self
      have hlist : L ++ b :: d :: R = (L ++ [b]) ++ d :: R := by simp
      have hb := hlack b List.mem_cons_self
      have hd : head 0 (blockAddrs (d :: R)) ≠ 0 := d.pos.ne'
      have onward : ∀ {t : Heap σ} (best : ℕ), Holds t (L ++ b :: d :: R) →
          ∃ bet again, searchMajors K size req (fuel + (d :: R).length) d.addr false best t =
              (match growAt K size (last 0 (blockAddrs (L ++ b :: d :: R)))
                  { t with bestBet := bet } with
                | (new, t) => if new = 0 then some (0, t)
                  else settle K size req fuel false again new t) ∧
            (bet = t.bestBet ∨ bet ∈ blockAddrs (L ++ b :: d :: R)) := by
        intro t best ht
        rw [hlist] at ht ⊢
        exact ih best ht fun a ha => hlack a (List.mem_cons_of_mem b ha)
      rw [searchMajors, if_neg b.pos.ne']
      split
      · rw [visit_lacking (h.bet_set hmem) hsmall hb, if_pos hd]
        obtain ⟨bet, again, heq, hbet⟩ := onward (freeIn s b.addr) (h.bet_set hmem)
        refine ⟨bet, again, heq, .inr ?_⟩
        rcases hbet with rfl | hbet
        · exact List.mem_map_of_mem hmem
        · exact hbet
      · rw [visit_lacking h hsmall hb, if_pos hd]
        exact onward bestSize h

/-- A request was served at the start of a new block, `nb`, of the pages from `p` on. -/
structure ServedNew (s' : Heap σ) (Bs : List Block) (size p : ℕ) (v : σ) (nb : Block) : Prop where
  holds : Holds s' (Bs ++ [nb])
  addr : nb.addr = p
  pages : nb.pages = pagesFor size
  usage : nb.usage = size + 80
  pager : s'.pager = v

/-- A new block serves the request at its start. -/
theorem settle_new {L : List Block} {nb : Block} (h : Holds s (L ++ [nb]))
    (hcells : nb.cells = []) (hpages : nb.pages = pagesFor size) (hal : nb.addr % 16 = 0)
    (hreq : req + (alignment + alignment) ≤ size) (hsize : size ≤ maxSize) (fuel : ℕ)
    (startedBet : Bool) (again : ℕ → Bool → Heap σ → Option (ℕ × Heap σ)) :
    ∃ s' b, settle K size req fuel startedBet again nb.addr s = some (nb.addr + 96, s') ∧
      ServedNew s' L size nb.addr s.pager b := by
  have hroom := (gap_of_empty hcells hpages hsize).2
  have hused : nb.usage = 40 := by
    rw [Block.usage, hcells, used_nil, recordSize_eq]
  obtain ⟨c, hc, rfl, rfl, hg⟩ := gap_front (b := nb) hreq (maxSize_lt hsize)
    (by
      rw [hcells, recordSize_eq]
      simp only [limit, Block.stop]
      omega)
  rw [hcells] at hg
  have hbound : nb.stop ≤ 2 ^ 64 := nb.bound
  obtain ⟨m, he, hP⟩ := caseNew_spec (s := s) hc nb.pos (hg.base_le.2.trans hbound)
  have hfirst : Major.first.get s.mem nb.addr = 0 := by
    rw [(h.records nb (List.mem_append_right L List.mem_cons_self)).first, hcells]
    rfl
  have hptr : c.ptr = nb.addr + 96 := by
    rw [Cell.ptr, align, alignSkip_eq, hc, recordSize_eq]
    omega
  have hholds := h.served hg hP
  refine ⟨_, nb.insert [] [] c hg, ?_, hholds, rfl, hpages, ?_, rfl⟩
  · rw [settle, placeIn, hfirst, if_pos rfl, he, served, hptr]
  · rw [usage_insert hg, hused, c.len_eq]
    omega

variable {Bs : List Block} {p : ℕ} {m : Bytes} {v : σ}

/-- **A request for which no block has the space**, if the hook gives pages. -/
theorem kmallocSized_grow (h : Holds s Bs) (hne : Bs ≠ []) (hlack : ∀ b ∈ Bs, b.Lacks size)
    (hreq : req + (alignment + alignment) ≤ size) (hsize : size ≤ maxSize)
    (halloc : ∀ bet, K.alloc (pagesFor size) { s with bestBet := bet } =
      (p, { s with bestBet := bet, mem := m, pager := v }))
    (hm : ∀ b ∈ Bs, ∀ x, b.addr ≤ x → x < b.stop → m.byte x = s.mem.byte x)
    (h0 : p ≠ 0) (hal : p % 16 = 0) (hfresh : Fresh Bs p (pagesFor size)) {fuel : ℕ}
    (hfuel : Bs.length ≤ fuel) :
    ∃ s' nb, kmallocSized K fuel size req s = some (p + 96, s') ∧
      ServedNew s' Bs size p v nb := by
  have hsmall := maxSize_lt hsize
  cases Bs with
  | nil => exact absurd rfl hne
  | cons b R =>
      obtain ⟨k, rfl⟩ : ∃ k, fuel = k + R.length + 1 :=
        ⟨fuel - (R.length + 1), by rw [List.length_cons] at hfuel; omega⟩
      have hroot : s.memRoot = b.addr := h.root
      -- the loop starts at the root, since the best bet lacks the space like any other
      have hstart : ∃ best, kmallocSized K (k + R.length + 1) size req s =
          searchMajors K size req (k + R.length + 1) b.addr false best s := by
        rw [kmallocSized, if_neg (by rw [hroot]; exact b.pos.ne'), searchFrom, hroot]
        by_cases hbet : s.bestBet = 0
        · exact ⟨0, if_pos hbet⟩
        · obtain ⟨e, he, heq⟩ := List.mem_map.mp (h.bet.resolve_left hbet)
          have helack : e.pages * pageBytes < e.usage + (size + 40) := hlack e he
          rw [if_neg hbet, ← heq, freeIn_eq (h.records e he), need_eq hsmall]
          exact ⟨_, if_neg (by omega)⟩
      obtain ⟨best, hstart⟩ := hstart
      obtain ⟨bet, again, hloop, hbet⟩ := searchMajors_lacking (K := K) req hsmall k
        (L := []) best h hlack
      rw [List.nil_append] at hloop hbet
      have hheld : Holds { s with bestBet := bet, mem := m, pager := v } (b :: R) := by
        refine (h.outside hm v).globals rfl rfl rfl rfl ?_
        rcases hbet with rfl | hbet
        · exact h.bet
        · exact .inr hbet
      obtain ⟨nb, t, rfl, hpages, hcells, hgrow, hnew, hpager, -⟩ :=
        growAt_given hheld (List.cons_ne_nil b R) hsize (halloc bet) h0 hfresh
      obtain ⟨s', b', hsettle, hserved⟩ := settle_new (K := K) hnew hcells hpages hal hreq hsize k
        false again
      refine ⟨s', b', ?_, { hserved with pager := hserved.pager.trans hpager }⟩
      rw [hstart, hloop, hgrow]
      exact (if_neg h0).trans hsettle

/-- The search in a heap of which the only block is new. -/
theorem searchFrom_first {nb : Block} (h : Holds s [nb]) (hbet : s.bestBet = 0)
    (hcells : nb.cells = []) (hpages : nb.pages = pagesFor size) (hal : nb.addr % 16 = 0)
    (hreq : req + (alignment + alignment) ≤ size) (hsize : size ≤ maxSize) (fuel : ℕ) :
    ∃ s' b, searchFrom K (fuel + 1) size req s = some (nb.addr + 96, s') ∧
      ServedNew s' [] size nb.addr s.pager b := by
  have hroom := (gap_of_empty hcells hpages hsize).2
  have hroot : s.memRoot = nb.addr := h.root
  have hmem : nb ∈ [nb] := List.mem_cons_self
  have hbest := h.bet_set hmem
  obtain ⟨s', b, hsettle, hserved⟩ := settle_new (K := K) (L := []) hbest hcells hpages hal hreq
    hsize fuel false
    (fun next startedBet t => searchMajors K size req fuel next startedBet (freeIn s nb.addr) t)
  refine ⟨s', b, ?_, hserved⟩
  rw [searchFrom, if_pos hbet, hroot, searchMajors, if_neg nb.pos.ne', freeIn_eq (h.records nb hmem),
    if_pos (by omega), visit, freeIn_eq (hbest.records nb hmem), need_eq (maxSize_lt hsize),
    if_neg (by omega), ← freeIn_eq (h.records nb hmem)]
  exact hsettle

/-- **The first request**, if the hook gives pages. -/
theorem kmallocSized_start (h : Holds s []) (hreq : req + (alignment + alignment) ≤ size)
    (hsize : size ≤ maxSize)
    (halloc : K.alloc (pagesFor size) s = (p, { s with mem := m, pager := v }))
    (h0 : p ≠ 0) (hal : p % 16 = 0) (hfresh : Fresh [] p (pagesFor size)) {fuel : ℕ}
    (hfuel : 0 < fuel) :
    ∃ s' nb, kmallocSized K fuel size req s = some (p + 96, s') ∧
      ServedNew s' [] size p v nb := by
  obtain ⟨k, rfl⟩ : ∃ k, fuel = k + 1 := ⟨fuel - 1, by omega⟩
  have hroot : s.memRoot = 0 := h.root
  have hbet : s.bestBet = 0 := h.bet.resolve_right List.not_mem_nil
  have hheld : Holds { s with mem := m, pager := v } [] :=
    h.outside (fun b hb => absurd hb List.not_mem_nil) v
  obtain ⟨nb, t, rfl, hpages, hcells, hgrow, hnew, hpager, hbest⟩ :=
    allocateNewPage_first hheld hsize halloc h0 hfresh
  obtain ⟨s', b, hsearch, hserved⟩ := searchFrom_first (K := K) hnew (hbest.trans hbet) hcells hpages
    hal hreq hsize k
  refine ⟨s', b, ?_, { hserved with pager := hserved.pager.trans hpager }⟩
  rw [kmallocSized, if_pos hroot, hgrow]
  exact (if_neg h0).trans hsearch

end

end Liballoc

end BootableKernel
