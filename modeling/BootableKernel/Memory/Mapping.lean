import BootableKernel.Memory.Supply

/-!
# What one mapping and one call of `vmm_mmap` write

A mapping with an address that creates the leaf of its page changes the translation of
that page and of no other, whatever tables it had to add on the way. Over the pages of a
request this gives the frame condition of `vmm_mmap`: the leaves of the pages it returns
and the directory entries above them are written, every other entry of the tables is as
before.

The free list stays sorted along every run in which empty ranges are not freed, so the
block that first fit selects is the one with the lowest address.
-/

namespace BootableKernel

open LinkedList

namespace Paging
variable {P : Platform}

/-- The 36-bit page number of an address. -/
def pageNumber (v : ℕ) : ℕ := v / pageSize % 2 ^ 36

/-- The position of a leaf is the page number. -/
theorem leafOf_eq_iff {v w : ℕ} : leafOf w = leafOf v ↔ pageNumber w = pageNumber v := by
  have hshift : ∀ u n, u / 2 ^ (12 + n) = u / 4096 / 2 ^ n := by
    intro u n
    rw [Nat.pow_add, Nat.div_div_eq_div_mul]
  simp only [leafOf, tablePath, pt4Index, pt3Index, pt2Index, pageIndex, indexAt, Prod.mk.injEq,
    List.cons.injEq, Fin.mk.injEq, pageNumber, pageSize, hshift _ 27, hshift _ 18, hshift _ 9]
  generalize w / 4096 = a
  generalize v / 4096 = b
  constructor
  · omega
  · intro h
    refine ⟨⟨?_, ?_, ?_, trivial⟩, ?_⟩ <;> omega

/-- **Creating a leaf.** Let the tables form a tree, and let the frames the allocator has
left be none of them and enough for the tables the walk lacks. Mapping a page whose leaf
is absent to `physical` keeps the tree, makes the page translate to `physical` with the
flags of the call and no right to execute, and changes the translation of no other page. -/
theorem vmmMapMemory_new_leaf {σ : Paging} (hP : P.Valid) (h : WellFormed P σ) {physical v : ℕ}
    (hnew : isPresent (σ.leaf P v) = false) (hal : physical % pageSize = 0) (hpos : 0 < physical)
    (hlt : physical < 2 ^ 40) (hsupply : σ.lackingTables P v ≤ σ.freeFrames.card) (k : Bool) :
    WellFormed P (σ.vmmMapMemory P physical v (mapFlags k)) ∧
    (σ.vmmMapMemory P physical v (mapFlags k)).translate P v = some physical ∧
    (σ.vmmMapMemory P physical v (mapFlags k)).leaf P v =
      BitVec.ofNat 64 physical ||| mapFlags k ||| noExecBit ∧
    (∀ x ∈ dirsOf v,
      isPresent ((σ.vmmMapMemory P physical v (mapFlags k)).pte P x.1 x.2) = true ∧
      isUser ((σ.vmmMapMemory P physical v (mapFlags k)).pte P x.1 x.2) = !k) ∧
    ∀ w, pageNumber w ≠ pageNumber v →
      (σ.vmmMapMemory P physical v (mapFlags k)).translate P w = σ.translate P w := by
  have s := vmmMapMemory_mapStep hP h physical v k hsupply
  have hleaf := s.given hnew (by omega)
  refine ⟨s.wf, ?_, hleaf, fun x hx => ?_, fun w hw => ?_⟩
  · rw [translate, target_of_present s.present, hleaf, frameOf_or_noExec, frameOf_or_flags,
      frameOf_ofNat hal hlt]
  · obtain ⟨hp, hu, -⟩ := s.dirs x hx
    exact ⟨hp, hu⟩
  · rw [translate, translate, s.leaf_other (mt leafOf_eq_iff.mp hw)]

/-- The first heap page of the sample image, mapped to a device. -/
theorem vmmMapMemory_new_leaf_device :
    (Boot.sample.paging.vmmMapMemory Boot.sample.platform 0xfd000000 heapStart
      (mapFlags false)).translate Boot.sample.platform heapStart = some 0xfd000000 := by
  have hpage : HeapPage heapStart := ⟨le_refl _, by decide, by decide⟩
  have hnew : isPresent (Boot.sample.paging.leaf Boot.sample.platform heapStart) = false := by
    rw [leaf_boot Boot.sample hpage.upper]
    decide
  exact (vmmMapMemory_new_leaf Boot.sample.platform_valid Boot.sample.wellFormed hnew (by decide)
    (by decide) (by decide) ((frames_boot Boot.sample).supply hpage) false).2.1

/-! ## The entries a range of pages writes -/

/-- Position `x` holds the leaf of one of `n` pages from `v` on, or a directory entry
above one. -/
def OnWalk (v n : ℕ) (x : List Index × Index) : Prop :=
  ∃ i < n, x = leafOf (v + i * pageSize) ∨ x ∈ dirsOf (v + i * pageSize)

/-- What mapping `n` pages from `v` on does to the entries of the tables. -/
structure Written (P : Platform) (σ σ' : Paging) (v n : ℕ) (k : Bool) : Prop where
  leaves : ∀ i < n, isPresent (σ'.leaf P (v + i * pageSize)) = true ∧
    isNoExec (σ'.leaf P (v + i * pageSize)) = true
  dirs : ∀ i < n, ∀ x ∈ dirsOf (v + i * pageSize), isPresent (σ'.pte P x.1 x.2) = true ∧
    isUser (σ'.pte P x.1 x.2) = !k
  others : ∀ x : List Index × Index, x.1.length ≤ 3 → ¬ OnWalk v n x →
    σ'.pte P x.1 x.2 = σ.pte P x.1 x.2

/-- One more page. -/
theorem Written.map {σ τ τ' : Paging} {v n m physical : ℕ} {k : Bool} (hv : HeapRange v n)
    (hm : m < n) (h : Written P σ τ v m k) (s : MapStep P τ τ' physical (v + m * pageSize) k) :
    Written P σ τ' v (m + 1) k := by
  refine ⟨fun i hi => ?_, fun i hi x hx => ?_, fun x hx hoff => ?_⟩
  · by_cases him : i = m
    · subst him
      exact ⟨s.present, s.noExec⟩
    · rw [s.leaf_other (hv.leafOf_ne (by omega) hm him)]
      exact h.leaves i (by omega)
  · by_cases hd : x ∈ dirsOf (v + m * pageSize)
    · obtain ⟨hp, hu, -⟩ := s.dirs x hd
      exact ⟨hp, hu⟩
    · have him : i ≠ m := fun he => hd (he ▸ hx)
      have hlen := length_le_of_mem_dirsOf hx
      rw [s.view x (by omega) hd fun he => by simp [he, leafOf, tablePath] at hlen]
      exact h.dirs i (by omega) x hx
  · have hd : x ∉ dirsOf (v + m * pageSize) := fun hc => hoff ⟨m, by omega, .inr hc⟩
    have hl : x ≠ leafOf (v + m * pageSize) := fun hc => hoff ⟨m, by omega, .inl hc⟩
    rw [s.view x hx hd hl]
    refine h.others x hx fun hc => hoff ?_
    obtain ⟨i, hi, hxi⟩ := hc
    exact ⟨i, by omega, hxi⟩

theorem Frames.ensure_written {σ : Paging} (hP : P.Valid) (h : Frames P σ) {v n : ℕ}
    (hv : HeapRange v n) (physical : ℕ) (k : Bool) :
    Written P σ (σ.ensurePagesMapped P (mapFlags k) n physical v) v n k := by
  refine (ensurePagesMapped_rule (I := fun m τ => Frames P τ ∧ Written P σ τ v m k) ⟨h, ?_⟩ ?_).2
  · exact ⟨fun i hi => absurd hi (by omega), fun i hi => absurd hi (by omega), fun _ _ _ => rfl⟩
  · intro m hm τ hτ
    obtain ⟨hf, s, -⟩ := hτ.1.map hP (hv m hm) (physicalAt physical m) k
    exact ⟨hf, hτ.2.map hv hm s⟩

end Paging

namespace Vmm
open Paging
variable {P : Platform}

/-! ## The order of the free list -/

/-- Requests of any size for memory, releases of ranges that are not empty, and
permissions of the image's pages. -/
def Served (_ : Vmm) : Request → Prop
  | .mmap _ _ _ _ => True
  | .free _ pages _ => 1 ≤ pages
  | .setPermission addr _ _ _ => addr < heapStart

/-- The ledger of such a run: the free list is coalesced, however `kmalloc` is served. -/
structure Ordered (σ : Vmm) (xs : List (ℕ × Span)) : Prop extends Ledger σ xs where
  coalesced : FreeList.Coalesced pageSize (blocks xs)

theorem Ordered.listed {σ : Vmm} {xs : List (ℕ × Span)} (h : Ordered σ xs) : Listed σ xs :=
  ⟨h.chain, h.coalesced, fun b hb => h.inHeap b (List.mem_append_left _ hb)⟩

theorem Ordered.apart {σ : Vmm} {xs : List (ℕ × Span)} (h : Ordered σ xs) {x : Span}
    (hx : x ∈ outstanding σ.calls) (hpos : 0 < x.size) :
    ∀ b ∈ blocks xs, FreeList.Apart pageSize x b := by
  intro b hb
  exact h.tiles.apart_of_mem_append pageSize_pos hb hx (h.coalesced.nonempty b hb) hpos

theorem Ordered.step {σ σ' : Vmm} {xs : List (ℕ × Span)} (h : Ordered σ xs)
    (hs : Step P Served σ σ') : ∃ ys, Ordered σ' ys := by
  obtain ⟨q, hserved, hlegal, hok⟩ := hs
  cases q with
  | mmap physical pages isKernel supply =>
      obtain ⟨s, hs⟩ := Request.perform_mmap_iff.mp hok
      rcases h.toLedger.mmap hs with ⟨-, he, -⟩ | ⟨ys, hys, htake, -⟩
      · exact ⟨xs, he ▸ h⟩
      · exact ⟨ys, hys, h.coalesced.take htake⟩
  | free start pages supply =>
      obtain ⟨hx, hf⟩ := hlegal
      have hpos : 0 < pages := hserved
      have hheap := h.inHeap _ (List.mem_append_right _ hx)
      have hap := h.apart hx hpos
      rcases vmmFreePages_ok (x := ⟨start, pages⟩) h.chain h.booted h.pos hf hok with
        ⟨ys, hr⟩ | ⟨k, y, l, r, -, ht, hr⟩
      · exact ⟨ys, h.toLedger.released hx hr, (hr.listed h.listed hpos hheap hap).coalesced⟩
      · obtain ⟨ys, hl, hys⟩ := hr.listed h.listed hpos hheap hap ht
        exact ⟨ys, h.toLedger.grown hx hr hl.chain hys, hl.coalesced⟩
  | setPermission addr isOs isWritable isExecutable =>
      obtain rfl := Except.ok.inj hok
      exact ⟨xs, ⟨h.chain, h.tiles, h.inHeap, h.booted⟩, h.coalesced⟩

theorem ordered_of_run {paging : Paging} {σ₀ σ : Vmm} (h₀ : Bootstrapped P paging σ₀)
    (hrun : Run P Served σ₀ σ) : ∃ xs, Ordered σ xs := by
  induction hrun with
  | refl =>
      obtain ⟨node, base, -, hlt, h, -⟩ := ledger_bootstrapped h₀
      refine ⟨_, h, FreeList.coalesced_cons.mpr ⟨?_, by simp, FreeList.coalesced_nil⟩⟩
      simp only
      omega
  | tail _ hs ih =>
      obtain ⟨xs, h⟩ := ih
      exact h.step hs

/-- What first fit selects from a coalesced list is the lowest block with room. -/
theorem lowest_of_take {xs : List Span} (h : FreeList.Coalesced pageSize xs) {n s : ℕ}
    {l : List Span} (ht : FreeList.take pageSize n xs = some (s, l)) :
    ∃ b ∈ xs, n ≤ b.size ∧ b.start = s ∧ ∀ c ∈ xs, n ≤ c.size → b.start ≤ c.start := by
  obtain ⟨l₁, b, r, rfl, hl, hb, rfl, -⟩ := FreeList.exists_of_take ht
  refine ⟨b, by simp, hb, rfl, fun c hc hn => ?_⟩
  rw [FreeList.coalesced_append] at h
  rcases List.mem_append.mp hc with hc | hc
  · exact absurd hn (by have := hl c hc; omega)
  · rcases List.mem_cons.mp hc with rfl | hc
    · exact le_refl _
    · have := (FreeList.coalesced_cons.mp h.2.1).2.1 c hc
      have : b.start ≤ b.stop pageSize := Nat.le_add_right ..
      omega

/-- The pages that leave the list are those returned. -/
theorem covered_take {xs l : List Span} (h : FreeList.Coalesced pageSize xs) {n s : ℕ}
    (ht : FreeList.take pageSize n xs = some (s, l)) (a : ℕ) :
    Covered l a ↔ Covered xs a ∧ ¬ (⟨s, n⟩ : Span).covers pageSize a = true := by
  have hcount := FreeList.countP_take pageSize_pos ht a
  have hone := h.countP_le_one pageSize_pos a
  rw [List.countP_cons] at hcount
  rw [covered_iff_countP, covered_iff_countP]
  by_cases hc : (⟨s, n⟩ : Span).covers pageSize a = true
  · rw [if_pos hc] at hcount
    simp only [hc, not_true, and_false, iff_false]
    omega
  · rw [if_neg hc] at hcount
    rw [Nat.add_zero] at hcount
    simp [hc, hcount]

end Vmm
end BootableKernel
