import BootableKernel.Memory.Frames
import BootableKernel.Memory.Permissions
import BootableKernel.Memory.Runs

/-!
# The frame supply over whole runs

The books of `Frames` hold after the bootstrap and after every request, so no run ever
exhausts the frame allocator: page tables come from the first bitmap word, which lies
below 2 MB, and data frames from the words of `MEM_START`.

The mapping loop of `ensure_pages_mapped` is handled once, by `ensurePagesMapped_rule`.
-/

namespace BootableKernel

namespace Paging
variable {P : Platform}

/-! ## The mapping loop -/

/-- The physical address of the `i`-th page of a mapping from `physical` on. -/
def physicalAt (physical i : ℕ) : ℕ := nextPhysical^[i] physical

@[simp] theorem physicalAt_zero (physical : ℕ) : physicalAt physical 0 = physical := rfl

theorem physicalAt_succ (physical i : ℕ) :
    physicalAt physical (i + 1) = physicalAt (nextPhysical physical) i := rfl

/-- A mapping without an address has none for any page. -/
@[simp] theorem physicalAt_null (i : ℕ) : physicalAt 0 i = 0 := by
  induction i with
  | zero => rfl
  | succ i ih => rw [physicalAt_succ, show nextPhysical 0 = 0 from rfl, ih]

/-- Below the end of the address space the pages follow one another. -/
theorem physicalAt_eq {physical i : ℕ} (hp : 0 < physical) (hlt : physical + i * pageSize < 2 ^ 64) :
    physicalAt physical i = physical + i * pageSize := by
  induction i generalizing physical with
  | zero => simp
  | succ i ih =>
      have hnext : nextPhysical physical = physical + pageSize := by
        rw [nextPhysical, if_neg (by omega), Nat.mod_eq_of_lt]
        simp only [pageSize] at hlt ⊢
        omega
      rw [physicalAt_succ, hnext, ih (by omega)]
      · simp only [pageSize]
        omega
      · simp only [pageSize] at hlt ⊢
        omega

/-- The rule for the mapping loop: what each page keeps or advances holds at the end. -/
theorem ensurePagesMapped_rule {I : ℕ → Paging → Prop} {flags : Entry} {n physical v : ℕ}
    {σ : Paging} (h₀ : I 0 σ)
    (step : ∀ i < n, ∀ τ, I i τ →
      I (i + 1) (τ.vmmMapMemory P (physicalAt physical i) (v + i * pageSize) flags)) :
    I n (σ.ensurePagesMapped P flags n physical v) := by
  induction n generalizing physical v σ I with
  | zero => exact h₀
  | succ n ih =>
      rw [ensurePagesMapped]
      refine ih (I := fun i => I (i + 1)) ?_ ?_
      · have := step 0 (by omega) σ h₀
        rwa [physicalAt_zero, Nat.zero_mul, Nat.add_zero] at this
      · intro i hi τ hτ
        have := step (i + 1) (by omega) τ hτ
        rwa [physicalAt_succ, Nat.add_mul, Nat.one_mul, Nat.add_comm (i * pageSize),
          ← Nat.add_assoc] at this

/-- Every page of a range is a page of the heap. -/
def HeapRange (v n : ℕ) : Prop := ∀ i < n, HeapPage (v + i * pageSize)

theorem Frames.ensure {σ : Paging} (hP : P.Valid) (h : Frames P σ) {v n : ℕ}
    (hv : HeapRange v n) (physical : ℕ) (k : Bool) :
    Frames P (σ.ensurePagesMapped P (mapFlags k) n physical v) :=
  ensurePagesMapped_rule (I := fun _ => Frames P) h fun i hi _ hτ =>
    (hτ.map hP (hv i hi) _ k).1

theorem Frames.ensure_owned {σ : Paging} (hP : P.Valid) (h : Frames P σ) (ho : Owned P σ)
    {v n : ℕ} (hv : HeapRange v n) {physical : ℕ}
    (hout : ∀ i < n, OutsideFrame P (physicalAt physical i)) (k : Bool) :
    Owned P (σ.ensurePagesMapped P (mapFlags k) n physical v) := by
  refine (ensurePagesMapped_rule (I := fun _ τ => Frames P τ ∧ Owned P τ) ⟨h, ho⟩ ?_).2
  intro i hi τ hτ
  obtain ⟨hf, hs, hd⟩ := hτ.1.map hP (hv i hi) (physicalAt physical i) k
  exact ⟨hf, hτ.2.map hs hd (hv i hi) (hout i hi)⟩

/-- No leaf loses its frame while a range is mapped. -/
theorem Frames.ensure_kept {σ : Paging} (hP : P.Valid) (h : Frames P σ) {v n : ℕ}
    (hv : HeapRange v n) (physical : ℕ) (k : Bool) {w a : ℕ} (ha : σ.translate P w = some a) :
    (σ.ensurePagesMapped P (mapFlags k) n physical v).translate P w = some a := by
  refine (ensurePagesMapped_rule
    (I := fun _ τ => Frames P τ ∧ τ.translate P w = some a) ⟨h, ha⟩ ?_).2
  intro i hi τ hτ
  obtain ⟨hf, hs, -⟩ := hτ.1.map hP (hv i hi) (physicalAt physical i) k
  exact ⟨hf, hs.translate_kept hτ.2⟩

/-- The leaves of pages outside the range stay as they are. -/
theorem Frames.ensure_other {σ : Paging} (hP : P.Valid) (h : Frames P σ) {v n : ℕ}
    (hv : HeapRange v n) (physical : ℕ) (k : Bool) {w : ℕ}
    (hw : ∀ i < n, leafOf w ≠ leafOf (v + i * pageSize)) :
    (σ.ensurePagesMapped P (mapFlags k) n physical v).leaf P w = σ.leaf P w := by
  refine (ensurePagesMapped_rule
    (I := fun _ τ => Frames P τ ∧ τ.leaf P w = σ.leaf P w) ⟨h, rfl⟩ ?_).2
  intro i hi τ hτ
  obtain ⟨hf, hs, -⟩ := hτ.1.map hP (hv i hi) (physicalAt physical i) k
  exact ⟨hf, (hs.leaf_other (hw i hi)).trans hτ.2⟩

/-- The pages of a range have different leaves. -/
theorem HeapRange.leafOf_ne {v n i j : ℕ} (hv : HeapRange v n) (hi : i < n) (hj : j < n)
    (hij : i ≠ j) : leafOf (v + i * pageSize) ≠ leafOf (v + j * pageSize) := by
  intro he
  have := leafOf_injective (hv i hi).aligned (hv j hj).aligned (hv i hi).upper.lt
    (hv j hj).upper.lt he
  simp only [pageSize] at this
  omega

/-- Each page of a range is mapped in a state `τ` in which its leaf is still as it was at
the start, and what is done to it there is what it has in the end. -/
theorem Frames.ensure_page {σ : Paging} (hP : P.Valid) (h : Frames P σ) {v n : ℕ}
    (hv : HeapRange v n) (physical : ℕ) (k : Bool) {i : ℕ} (hi : i < n) :
    ∃ τ : Paging, Frames P τ ∧ τ.leaf P (v + i * pageSize) = σ.leaf P (v + i * pageSize) ∧
      (σ.ensurePagesMapped P (mapFlags k) n physical v).leaf P (v + i * pageSize) =
        (τ.vmmMapMemory P (physicalAt physical i) (v + i * pageSize) (mapFlags k)).leaf P
          (v + i * pageSize) ∧
      pagesOf (τ.vmmMapMemory P (physicalAt physical i) (v + i * pageSize) (mapFlags k)).obtained ⊆
        pagesOf (σ.ensurePagesMapped P (mapFlags k) n physical v).obtained := by
  -- The pages mapped so far are as described; the others have not been touched.
  let I : ℕ → Paging → Prop := fun m ρ => Frames P ρ ∧
    (∀ i < m, ∃ τ : Paging, Frames P τ ∧ τ.leaf P (v + i * pageSize) = σ.leaf P (v + i * pageSize) ∧
      ρ.leaf P (v + i * pageSize) =
        (τ.vmmMapMemory P (physicalAt physical i) (v + i * pageSize) (mapFlags k)).leaf P
          (v + i * pageSize) ∧
      pagesOf (τ.vmmMapMemory P (physicalAt physical i) (v + i * pageSize) (mapFlags k)).obtained ⊆
        pagesOf ρ.obtained) ∧
    ∀ i, m ≤ i → i < n → ρ.leaf P (v + i * pageSize) = σ.leaf P (v + i * pageSize)
  have hend : I n (σ.ensurePagesMapped P (mapFlags k) n physical v) := by
    refine ensurePagesMapped_rule (I := I) ⟨h, fun i hi => absurd hi (by omega), fun _ _ _ => rfl⟩ ?_
    rintro m hm ρ ⟨hρ, hdone, hrest⟩
    obtain ⟨hf, s, hd⟩ := hρ.map hP (hv m hm) (physicalAt physical m) k
    refine ⟨hf, fun i hi => ?_, fun i hi hin => ?_⟩
    · by_cases him : i = m
      · subst him
        exact ⟨ρ, hρ, hrest i (le_refl _) hm, rfl, List.Subset.refl _⟩
      · obtain ⟨τ, hτ, hold, hnew, hsub⟩ := hdone i (by omega)
        refine ⟨τ, hτ, hold, ?_, List.Subset.trans hsub hd.subset⟩
        rw [s.leaf_other (hv.leafOf_ne (by omega) hm him), hnew]
    · rw [s.leaf_other (hv.leafOf_ne hin hm (by omega))]
      exact hrest i (by omega) hin
  exact hend.2.1 i hi

/-- Frames that were drawn stay on record while a range is mapped. -/
theorem Frames.ensure_subset {σ : Paging} (hP : P.Valid) (h : Frames P σ) {v n : ℕ}
    (hv : HeapRange v n) (physical : ℕ) (k : Bool) :
    pagesOf σ.obtained ⊆ pagesOf (σ.ensurePagesMapped P (mapFlags k) n physical v).obtained := by
  refine (ensurePagesMapped_rule
    (I := fun _ τ => Frames P τ ∧ pagesOf σ.obtained ⊆ pagesOf τ.obtained)
    ⟨h, List.Subset.refl _⟩ ?_).2
  intro i hi τ hτ
  obtain ⟨hf, -, hd⟩ := hτ.1.map hP (hv i hi) (physicalAt physical i) k
  exact ⟨hf, List.Subset.trans hτ.2 hd.subset⟩

/-! ## Permissions -/

/-- `set_page_permission` keeps what every entry designates. -/
theorem PermStep.same {σ σ' : Paging} {v : ℕ} {isOs w x : Bool} (s : PermStep P σ σ' v isOs w x)
    (hm : Mapped P σ v) {q : List Index} (hq : q.length ≤ 3) (j : Index) :
    isPresent (σ'.pte P q j) = isPresent (σ.pte P q j) ∧
      frameOf (σ'.pte P q j) = frameOf (σ.pte P q j) := by
  by_cases hd : (q, j) ∈ dirsOf v
  · have hnew : σ'.pte P q j = setFlags isOs (σ.pte P q j) := s.dirs (q, j) hd
    have hold : isPresent (σ.pte P q j) = true := hm.dirs (q, j) hd
    rw [hnew, isPresent_setFlags, hold, frameOf_setFlags]
    exact ⟨rfl, rfl⟩
  · by_cases hl : (q, j) = leafOf v
    · simp only [leafOf, Prod.mk.injEq] at hl
      rw [hl.1, hl.2, show σ'.pte P (tablePath v) (pageIndex v) = _ from s.leaf,
        isPresent_leafFlags, frameOf_leafFlags,
        show isPresent (σ.pte P (tablePath v) (pageIndex v)) = true from hm.leaf]
      exact ⟨rfl, rfl⟩
    · rw [show σ'.pte P q j = σ.pte P q j from s.view (q, j) hq hd hl]
      exact ⟨rfl, rfl⟩

theorem PermStep.translate_eq {σ σ' : Paging} {v : ℕ} {isOs w x : Bool}
    (s : PermStep P σ σ' v isOs w x) (hm : Mapped P σ v) (u : ℕ) :
    σ'.translate P u = σ.translate P u := by
  obtain ⟨hp, hf⟩ := s.same hm (q := tablePath u) (by simp [tablePath]) (pageIndex u)
  exact target_congr hp hf

theorem Frames.permit {σ σ' : Paging} {v : ℕ} {isOs w x : Bool} (h : Frames P σ)
    (s : PermStep P σ σ' v isOs w x) (hm : Mapped P σ v) : Frames P σ' :=
  h.congr s.wf s.bitmap_eq s.obtained_eq
    (fun _ j hq => ⟨(s.same hm (by omega) j).1, fun _ => (s.same hm (by omega) j).2⟩)
    fun u hu => (s.same hm (by simp [tablePath]) (pageIndex u)).1.trans hu

theorem Owned.permit {σ σ' : Paging} {v : ℕ} {isOs w x : Bool} (h : Owned P σ)
    (s : PermStep P σ σ' v isOs w x) (hm : Mapped P σ v) : Owned P σ' := by
  intro u hu a ha hin
  rw [s.obtained_eq]
  rw [s.translate_eq hm] at ha
  exact h u hu a ha hin

/-! ## The identity map -/

/-- The first 2 MB are mapped to themselves. -/
structure Identity (P : Platform) (σ : Paging) : Prop where
  p2 : isPresent (σ.pte P [0, 0] 0) = true
  low : ∀ v < heapStart, σ.translate P v = some (v / pageSize * pageSize)

theorem indices_low {v : ℕ} (hv : v < heapStart) :
    pt4Index v = 0 ∧ pt3Index v = 0 ∧ pt2Index v = 0 := by
  simp only [heapStart] at hv
  simp only [pt4Index, pt3Index, pt2Index, indexAt, Fin.ext_iff, Fin.coe_ofNat_eq_mod]
  omega

theorem present_of_translate {σ : Paging} {v a : ℕ} (h : σ.translate P v = some a) :
    isPresent (σ.leaf P v) = true := by
  by_contra hc
  rw [translate, target, if_neg hc] at h
  exact absurd h (by simp)

theorem Identity.mapped {σ : Paging} (h : Identity P σ) (hf : Frames P σ) {v : ℕ}
    (hv : v < heapStart) : Mapped P σ v := by
  obtain ⟨h4, h3, h2⟩ := indices_low hv
  refine ⟨?_, present_of_translate (h.low v hv)⟩
  intro x hx
  simp only [dirsOf, h4, h3, h2, List.mem_cons, List.not_mem_nil, or_false] at hx
  rcases hx with rfl | rfl | rfl
  · exact hf.p4
  · exact hf.p3
  · exact h.p2

theorem Identity.permit {σ σ' : Paging} {v : ℕ} {isOs w x : Bool} (h : Identity P σ)
    (s : PermStep P σ σ' v isOs w x) (hm : Mapped P σ v) : Identity P σ' :=
  ⟨(s.same hm (by simp) 0).1.trans h.p2, fun u hu => (s.translate_eq hm u).trans (h.low u hu)⟩

theorem Identity.map {σ σ' : Paging} {physical v : ℕ} {k : Bool} (h : Identity P σ)
    (s : MapStep P σ σ' physical v k) (hv : HeapPage v) : Identity P σ' := by
  obtain ⟨h4, h3, h2, -⟩ := hv.indices
  refine ⟨?_, fun u hu => s.translate_kept (h.low u hu)⟩
  rw [s.view ([0, 0], 0) (by simp)]
  · exact h.p2
  · simp [dirsOf, h4, h3, Ne.symm h2]
  · simp [leafOf, tablePath]

theorem Frames.ensure_identity {σ : Paging} (hP : P.Valid) (h : Frames P σ) (hi : Identity P σ)
    {v n : ℕ} (hv : HeapRange v n) (physical : ℕ) (k : Bool) :
    Identity P (σ.ensurePagesMapped P (mapFlags k) n physical v) := by
  refine (ensurePagesMapped_rule (I := fun _ τ => Frames P τ ∧ Identity P τ) ⟨h, hi⟩ ?_).2
  intro i hn τ hτ
  obtain ⟨hf, hs, -⟩ := hτ.1.map hP (hv i hn) (physicalAt physical i) k
  exact ⟨hf, hτ.2.map hs (hv i hn)⟩

/-! ## Boot -/

theorem pte_boot (B : Boot) {q : List Index} (hq : q.length ≤ 3) (i : Index) :
    B.paging.pte B.platform q i =
      if ∀ j ∈ q, j = 0 then B.paging.mem (B.base + 0x1000 * q.length) i else 0 := by
  rw [pte, Radix.view, show B.platform.pt4 = B.base from rfl, B.walk_boot hq]
  by_cases hz : ∀ j ∈ q, j = 0
  · simp only [if_pos hz]
  · simp only [if_neg hz]

/-- Above the first 2 MB nothing is mapped at boot. -/
theorem leaf_boot (B : Boot) {v : ℕ} (hv : UpperPage v) : B.paging.leaf B.platform v = 0 := by
  rw [leaf, pte_boot B (by simp [tablePath]), if_neg]
  intro hz
  have h₁ := hv.ge
  have h₂ := hv.lt
  have h4 := hz (pt4Index v) (by simp [tablePath])
  have h3 := hz (pt3Index v) (by simp [tablePath])
  have h2 := hz (pt2Index v) (by simp [tablePath])
  simp only [pt4Index, pt3Index, pt2Index, indexAt, Fin.ext_iff, Fin.coe_ofNat_eq_mod,
    heapStart] at h4 h3 h2 h₁
  omega

/-- The first three boot tables hold one link each. -/
theorem pte_boot_link (B : Boot) {q : List Index} (hq : q.length ≤ 2) (i : Index) :
    B.paging.pte B.platform q i = if (∀ j ∈ q, j = 0) ∧ i = 0 then
      BitVec.ofNat 64 (B.base + 0x1000 * (q.length + 1)) ||| mapFlags true else 0 := by
  rw [pte_boot B (by omega), B.mem_table (by omega)]
  by_cases hz : ∀ j ∈ q, j = 0
  · rw [if_pos hz]
    by_cases hi : i = 0
    · rw [if_pos hi, if_pos ⟨hz, hi⟩]
    · rw [if_neg hi, if_neg fun h => hi h.2]
  · rw [if_neg hz, if_neg fun h => hz h.1]

theorem frames_boot (B : Boot) : Frames B.platform B.paging := by
  have hlow := B.tables_low
  have hres := B.reserved_low
  refine ⟨B.wellFormed, ?_, ?_, ?_, ?_, ?_, ?_, ?_, ?_, ?_, ?_⟩
  · rw [pte_boot_link B (by simp), if_pos (by simp), isPresent_or_flags]
  · rw [pte_boot_link B (by simp), if_pos (by simp), isPresent_or_flags]
  · intro f _
    rw [Boot.paging, PMM.isFree_init]
    rfl
  · intro f hf _
    rw [Boot.paging, PMM.isFree_init]
    exact (decide_eq_true (by simpa [pagesOf] using hf)).symm
  · symm
    rw [show tablesOf B.paging.obtained = [] from rfl, List.length_nil, Finset.card_eq_zero,
      heapTables, Finset.filter_eq_empty_iff]
    intro j _ hc
    rw [pte_boot_link B (by simp), if_neg fun h => hc.1 h.2] at hc
    exact absurd hc.2.2 (by decide)
  · intro a ha
    simp [Boot.paging, tablesOf] at ha
  · intro q i hq hpr
    left
    rw [pte_boot_link B hq] at hpr ⊢
    split at hpr
    · rename_i hz
      rw [if_pos hz, frameOf_or_flags,
        frameOf_ofNat (by have := B.base_aligned; omega) (by omega)]
      simp only [Boot.platform]
      omega
    · exact absurd hpr (by decide)
  · intro x hx
    simp [Boot.paging, pagesOf] at hx
  · simp [Boot.paging, pagesOf]
  · simp [Boot.paging, pagesOf]

theorem owned_boot (B : Boot) : Owned B.platform B.paging := by
  intro v hv a ha _
  rw [translate, leaf_boot B hv, target_zero] at ha
  exact absurd ha (by simp)

/-- The leaves of the first 2 MB at boot. -/
theorem leaf_boot_low (B : Boot) {v : ℕ} (hv : v < heapStart) : B.paging.leaf B.platform v =
    BitVec.ofNat 64 (v / pageSize * pageSize) ||| mapFlags true := by
  obtain ⟨h4, h3, h2⟩ := indices_low hv
  have hleaf : B.paging.leaf B.platform v = BitVec.ofNat 64 (0x3 + 0x1000 * (pageIndex v).val) := by
    rw [leaf, pte_boot B (by simp [tablePath]), if_pos (by simp [tablePath, h4, h3, h2])]
    exact B.mem_pageTable (pageIndex v)
  have hidx : (pageIndex v).val = v / 4096 := by
    simp only [heapStart] at hv
    simp only [pageIndex, indexAt]
    omega
  rw [hleaf, hidx, show mapFlags true = BitVec.ofNat 64 3 by decide, ← BitVec.ofNat_or]
  congr 1
  rw [pageSize, Nat.mul_comm (v / 4096), ← Nat.two_pow_add_eq_or_of_lt (i := 12) (by decide)]
  omega

theorem identity_boot (B : Boot) : Identity B.platform B.paging := by
  refine ⟨?_, fun v hv => ?_⟩
  · rw [pte_boot_link B (by simp), if_pos (by simp), isPresent_or_flags]
  · have hlt : v / pageSize * pageSize < 2 ^ 40 := by
      simp only [heapStart, pageSize] at *
      omega
    have hal : v / pageSize * pageSize % 4096 = 0 := Nat.mul_mod_left ..
    rw [translate, leaf_boot_low B hv, target_of_present (isPresent_or_flags ..), frameOf_or_flags,
      frameOf_ofNat hal hlt]

end Paging

namespace Vmm
open Paging
variable {P : Platform}

/-! ## What a request does to the page tables -/

theorem heapPage_of_covers {v : ℕ} (h : heapSpan.covers pageSize v = true) : HeapPage v := by
  obtain ⟨j, hj, rfl⟩ := (Span.covers_iff pageSize_pos).mp h
  simp only [heapSpan, maxHeapSize] at hj
  refine ⟨by simp only [heapSpan]; omega, ?_, ?_⟩
  · simp only [heapSpan, heapEnd, maxHeapSize, pageSize]
    omega
  · simp only [heapSpan, heapStart, pageSize]
    omega

/-- The pages of an outstanding range are pages of the heap. -/
theorem Ledger.heapRange {σ : Vmm} {xs : List (ℕ × Span)} (h : Ledger σ xs) {x : Span}
    (hx : x ∈ outstanding σ.calls) : HeapRange x.start x.size := by
  intro i hi
  exact heapPage_of_covers (h.heap_of_covers (List.mem_append_right _ hx)
    ((Span.covers_iff pageSize_pos).mpr ⟨i, hi, rfl⟩))

/-- What a request does to the page tables and to the record of calls. -/
inductive Effect (P : Platform) (allowed : Vmm → Request → Prop) (σ σ' : Vmm) : Prop
  /-- `vmm_mmap` found no room. -/
  | refused (paging_eq : σ'.paging = σ.paging) (calls_eq : σ'.calls = σ.calls)
  /-- `vmm_mmap` returned `start`. -/
  | mapped (physical pages start : ℕ) (isKernel : Bool) (supply : Supply)
      (admitted : allowed σ (.mmap physical pages isKernel supply))
      (range : HeapRange start pages)
      (paging_eq : σ'.paging =
        σ.paging.ensurePagesMapped P (mapFlags isKernel) pages physical start)
      (calls_eq : σ'.calls = .mapped start pages physical isKernel :: σ.calls)
  /-- `vmm_free_pages` returned a range. -/
  | freed (x : Span) (supply : Supply) (admitted : allowed σ (.free x.start x.size supply))
      (mem : x ∈ outstanding σ.calls) (paging_eq : σ'.paging = σ.paging)
      (calls_eq : σ'.calls = .freed x.start x.size :: σ.calls)
  /-- `vmm_free_pages` returned a range, and `kmalloc` took pages meanwhile. -/
  | freedGrown (x : Span) (supply : Supply) (k start : ℕ)
      (admitted : allowed σ (.free x.start x.size supply)) (mem : x ∈ outstanding σ.calls)
      (range : HeapRange start k)
      (paging_eq : σ'.paging = σ.paging.ensurePagesMapped P (mapFlags true) k 0 start)
      (calls_eq : σ'.calls = .freed x.start x.size :: .mapped start k 0 true :: σ.calls)
  /-- `set_page_permission`. -/
  | permitted (addr : ℕ) (isOs isWritable isExecutable : Bool)
      (admitted : allowed σ (.setPermission addr isOs isWritable isExecutable))
      (paging_eq : σ'.paging =
        σ.paging.setPagePermission P addr isOs isWritable isExecutable)
      (calls_eq : σ'.calls = σ.calls)

/-- The pages cut off a free block are pages of the heap. -/
theorem Ledger.heapRange_take {σ : Vmm} {xs : List (ℕ × Span)} (h : Ledger σ xs) {n s : ℕ}
    {l : List Span} (ht : FreeList.take pageSize n (blocks xs) = some (s, l)) : HeapRange s n := by
  obtain ⟨l₁, b, r, hxs, -, hb, rfl, -⟩ := FreeList.exists_of_take ht
  intro i hi
  refine heapPage_of_covers (h.heap_of_covers (b := b) (List.mem_append_left _ ?_)
    ((Span.covers_iff pageSize_pos).mpr ⟨i, by omega, rfl⟩))
  rw [hxs]
  simp

theorem Ledger.effect {allowed : Vmm → Request → Prop} {σ σ' : Vmm} {xs : List (ℕ × Span)}
    (h : Ledger σ xs) (hs : Step P allowed σ σ') : Effect P allowed σ σ' := by
  obtain ⟨q, hq, hlegal, hok⟩ := hs
  cases q with
  | mmap physical pages isKernel supply =>
      obtain ⟨s, hs⟩ := Request.perform_mmap_iff.mp hok
      rcases h.mmap hs with ⟨-, he, -⟩ | ⟨ys, -, htake, -, hcalls, hpaging⟩
      · exact .refused (by rw [he]) (by rw [he])
      · exact .mapped physical pages s isKernel supply hq (h.heapRange_take htake) hpaging hcalls
  | free start pages supply =>
      obtain ⟨hx, hf⟩ := hlegal
      obtain ⟨ys, -, ⟨hpaging, hcalls⟩ | ⟨k, s, l, htake, hpaging, hcalls⟩⟩ :=
        h.free (x := ⟨start, pages⟩) hf hx hok
      · exact .freed ⟨start, pages⟩ supply hq hx hpaging hcalls
      · exact .freedGrown ⟨start, pages⟩ supply k s hq hx (h.heapRange_take htake) hpaging hcalls
  | setPermission addr isOs isWritable isExecutable =>
      obtain rfl := Except.ok.inj hok
      exact .permitted addr isOs isWritable isExecutable hq rfl rfl

/-! ## Runs -/

/-- What every run keeps of the page tables. -/
structure Kept (P : Platform) (σ : Paging) : Prop where
  frames : Frames P σ
  identity : Identity P σ

theorem kept_boot (B : Boot) : Kept B.platform B.paging := ⟨frames_boot B, identity_boot B⟩

theorem Kept.ensure {σ : Paging} (hP : P.Valid) (h : Kept P σ) {v n : ℕ} (hv : HeapRange v n)
    (physical : ℕ) (k : Bool) : Kept P (σ.ensurePagesMapped P (mapFlags k) n physical v) :=
  ⟨h.frames.ensure hP hv physical k, h.frames.ensure_identity hP h.identity hv physical k⟩

theorem Kept.permit {σ : Paging} (h : Kept P σ) {v : ℕ} (hv : v < heapStart) (isOs w x : Bool) :
    Kept P (σ.setPagePermission P v isOs w x) ∧
      PermStep P σ (σ.setPagePermission P v isOs w x) v isOs w x ∧ Mapped P σ v := by
  have hm := h.identity.mapped h.frames hv
  have hs := setPagePermission_permStep h.frames.wf hm isOs w x
  exact ⟨⟨h.frames.permit hs hm, h.identity.permit hs hm⟩, hs, hm⟩

/-- Permissions are only set on pages of the first 2 MB. -/
def LowPermissions (allowed : Vmm → Request → Prop) : Prop :=
  ∀ σ addr isOs isWritable isExecutable,
    allowed σ (.setPermission addr isOs isWritable isExecutable) → addr < heapStart

theorem Effect.kept {allowed : Vmm → Request → Prop} {σ σ' : Vmm} (hP : P.Valid)
    (hlow : LowPermissions allowed) (e : Effect P allowed σ σ') (h : Kept P σ.paging) :
    Kept P σ'.paging := by
  cases e with
  | refused hp => exact hp ▸ h
  | mapped physical pages start isKernel supply ha hr hp => exact hp ▸ h.ensure hP hr physical isKernel
  | freed x supply ha hm hp => exact hp ▸ h
  | freedGrown x supply k start ha hm hr hp => exact hp ▸ h.ensure hP hr 0 true
  | permitted addr isOs isWritable isExecutable ha hp =>
      exact hp ▸ (h.permit (hlow _ _ _ _ _ ha) isOs isWritable isExecutable).1

/-- The bootstrap maps the pages `kmalloc` asked for. -/
theorem bootstrapped_range {paging : Paging} {σ₀ : Vmm} (h₀ : Bootstrapped P paging σ₀) :
    ∃ base, 0 < base ∧ HeapRange heapStart base ∧ σ₀.calls = [.mapped heapStart base 0 true] ∧
      σ₀.paging = paging.ensurePagesMapped P (mapFlags true) base 0 heapStart := by
  obtain ⟨node, base, hpos, -, hl, hcalls, hp⟩ := ledger_bootstrapped h₀
  refine ⟨base, hpos, ?_, hcalls, hp⟩
  exact hl.heapRange (x := ⟨heapStart, base⟩) (by rw [hcalls]; simp [outstanding])

/-- **The books are kept along every run.** -/
theorem kept_of_run (B : Boot) {allowed : Vmm → Request → Prop} (hlow : LowPermissions allowed)
    {σ₀ σ : Vmm} (h₀ : Bootstrapped B.platform B.paging σ₀) (hrun : Run B.platform allowed σ₀ σ) :
    Kept B.platform σ.paging := by
  induction hrun with
  | refl =>
      obtain ⟨base, -, hr, -, hp⟩ := bootstrapped_range h₀
      rw [hp]
      exact (kept_boot B).ensure B.platform_valid hr 0 true
  | tail hr hs ih =>
      obtain ⟨xs, hl⟩ := ledger_of_run h₀ hr
      exact (hl.effect hs).kept B.platform_valid hlow ih

/-- Explicit addresses lie outside the frames of the physical memory manager, for every
page that is asked for. -/
def OutsideFrames (P : Platform) (physical pages : ℕ) : Prop :=
  ∀ i < pages, OutsideFrame P (physicalAt physical i)

theorem Effect.owned {allowed : Vmm → Request → Prop} {σ σ' : Vmm} (hP : P.Valid)
    (hlow : LowPermissions allowed)
    (hout : ∀ σ physical pages isKernel supply,
      allowed σ (.mmap physical pages isKernel supply) → OutsideFrames P physical pages)
    (e : Effect P allowed σ σ') (h : Kept P σ.paging) (ho : Owned P σ.paging) :
    Owned P σ'.paging := by
  cases e with
  | refused hp => exact hp ▸ ho
  | mapped physical pages start isKernel supply ha hr hp =>
      exact hp ▸ h.frames.ensure_owned hP ho hr (hout _ _ _ _ _ ha) isKernel
  | freed x supply ha hm hp => exact hp ▸ ho
  | freedGrown x supply k start ha hm hr hp =>
      exact hp ▸ h.frames.ensure_owned hP ho hr (fun i _ => .inl (physicalAt_null i)) true
  | permitted addr isOs isWritable isExecutable ha hp =>
      obtain ⟨-, hs, hm⟩ := h.permit (hlow _ _ _ _ _ ha) isOs isWritable isExecutable
      exact hp ▸ ho.permit hs hm

theorem owned_of_run (B : Boot) {allowed : Vmm → Request → Prop} (hlow : LowPermissions allowed)
    (hout : ∀ σ physical pages isKernel supply,
      allowed σ (.mmap physical pages isKernel supply) → OutsideFrames B.platform physical pages)
    {σ₀ σ : Vmm} (h₀ : Bootstrapped B.platform B.paging σ₀) (hrun : Run B.platform allowed σ₀ σ) :
    Owned B.platform σ.paging := by
  induction hrun with
  | refl =>
      obtain ⟨base, -, hr, -, hp⟩ := bootstrapped_range h₀
      rw [hp]
      exact (frames_boot B).ensure_owned B.platform_valid (owned_boot B) hr
        (fun i _ => .inl (physicalAt_null i)) true
  | tail hr hs ih =>
      obtain ⟨xs, hl⟩ := ledger_of_run h₀ hr
      exact (hl.effect hs).owned B.platform_valid hlow hout (kept_of_run B hlow h₀ hr) ih

/-- No leaf ever loses its frame. -/
theorem Effect.translate_kept {allowed : Vmm → Request → Prop} {σ σ' : Vmm} (hP : P.Valid)
    (hlow : LowPermissions allowed) (e : Effect P allowed σ σ') (h : Kept P σ.paging) {v a : ℕ}
    (ha : σ.paging.translate P v = some a) : σ'.paging.translate P v = some a := by
  cases e with
  | refused hp => exact hp ▸ ha
  | mapped physical pages start isKernel supply _ hr hp =>
      exact hp ▸ h.frames.ensure_kept hP hr physical isKernel ha
  | freed x supply _ hm hp => exact hp ▸ ha
  | freedGrown x supply k start _ hm hr hp => exact hp ▸ h.frames.ensure_kept hP hr 0 true ha
  | permitted addr isOs isWritable isExecutable hadm hp =>
      obtain ⟨-, hs, hm⟩ := h.permit (hlow _ _ _ _ _ hadm) isOs isWritable isExecutable
      rw [hp, hs.translate_eq hm]
      exact ha

theorem translate_of_run (B : Boot) {allowed : Vmm → Request → Prop}
    (hlow : LowPermissions allowed) {σ₀ σ₁ σ : Vmm} (h₀ : Bootstrapped B.platform B.paging σ₀)
    (hrun₁ : Run B.platform allowed σ₀ σ₁) (hrun : Run B.platform allowed σ₁ σ) {v a : ℕ}
    (ha : σ₁.paging.translate B.platform v = some a) :
    σ.paging.translate B.platform v = some a := by
  induction hrun with
  | refl => exact ha
  | tail hr hs ih =>
      obtain ⟨xs, hl⟩ := ledger_of_run h₀ (hrun₁.trans hr)
      exact (hl.effect hs).translate_kept B.platform_valid hlow
        (kept_of_run B hlow h₀ (hrun₁.trans hr)) ih

/-! ## The supply never runs out -/

/-- Requests to the memory manager whose explicit addresses lie outside the frames of
the physical memory manager. -/
def Mapping (P : Platform) (_ : Vmm) : Request → Prop
  | .mmap physical pages _ _ => OutsideFrames P physical pages
  | .free _ _ _ => True
  | .setPermission _ _ _ _ => False

theorem mem_obtained {o : Obtained} {l : List Obtained} (h : o ∈ l) :
    o.frame ∈ tablesOf l ∨ ∃ v, (o.frame, v) ∈ pagesOf l := by
  cases o with
  | table a => exact .inl (mem_tablesOf.mpr h)
  | page a v => exact .inr ⟨v, mem_pagesOf.mpr h⟩

/-- An obtained frame lies above the image and below the end of the bitmap's memory. -/
theorem obtained_bounds {σ : Paging} (hP : P.Valid) (h : Frames P σ) {o : Obtained}
    (ho : o ∈ σ.obtained) :
    P.reservedStart ≤ o.frame ∧ o.frame + pageSize ≤ 0x8000000 ∧
      PMM.InFrames P.reservedStart o.frame := by
  obtain ⟨h64, hmax, hmem⟩ := firstData_bounds hP
  have hlow := hP.low
  rcases mem_obtained ho with ht | ⟨v, hp⟩
  · obtain ⟨f, hf, he⟩ := h.table_lt ht
    rw [he]
    simp only [PMM.InFrames, frame, PMM.frameAddr, pageSize, frameCount, bitmapWords]
    omega
  · obtain ⟨k, hk, he⟩ := h.page_lt hp
    rw [show o.frame = _ from he]
    simp only [PMM.InFrames, frame, PMM.frameAddr, pageSize, frameCount, bitmapWords,
      maxHeapSize] at *
    omega

/-- **Frames over whole runs.** Take any two moments of a run, the second being `σ`. Of
the frames asked for up to then:

* none is the null frame;
* those for page tables lie below 2 MB;
* none stands behind two pages from the heap on, at whichever of the moments, and none
  behind such a page while it is a page table;
* all lie between the first free page and 128 MB. -/
theorem frames_never_shared (B : Boot) {σ₀ σ₁ σ : Vmm}
    (h₀ : Bootstrapped B.platform B.paging σ₀)
    (hrun₁ : Run B.platform (Mapping B.platform) σ₀ σ₁)
    (hrun : Run B.platform (Mapping B.platform) σ₁ σ) :
    (∀ o ∈ σ.paging.obtained, o.frame ≠ 0) ∧
    (∀ a, .table a ∈ σ.paging.obtained → a + pageSize ≤ 0x200000) ∧
    (∀ o ∈ σ.paging.obtained, ∀ v, UpperPage v →
      σ₁.paging.translate B.platform v = some o.frame →
        (∀ w, UpperPage w → σ.paging.translate B.platform w = some o.frame → w = v) ∧
        .table o.frame ∉ σ.paging.obtained ∧
        ∀ q, q.length ≤ 3 → Radix.walk target σ.paging.mem B.base q ≠ some o.frame) ∧
    ∀ o ∈ σ.paging.obtained, B.reservedStart ≤ o.frame ∧ o.frame + pageSize ≤ 0x8000000 := by
  have hP := B.platform_valid
  have hlow : LowPermissions (Mapping B.platform) := fun _ _ _ _ _ h => h.elim
  have hk := (kept_of_run B hlow h₀ (hrun₁.trans hrun)).frames
  have ho := owned_of_run B hlow (fun _ _ _ _ _ h => h) h₀ (hrun₁.trans hrun)
  have hroot : B.platform.pt4 < B.platform.reservedStart := by
    have := B.tables_low
    simp only [Boot.platform]
    omega
  refine ⟨fun o hmem => ?_, fun a hmem => ?_, fun o hmem v hv h₁ => ?_, fun o hmem => ?_⟩
  · have := (obtained_bounds hP hk hmem).1
    have := hP.pos
    omega
  · obtain ⟨f, hf, he⟩ := hk.table_lt (mem_tablesOf.mpr hmem)
    have := hP.low
    rw [he]
    simp only [frame, PMM.frameAddr, pageSize]
    omega
  · obtain ⟨hge, -, hin⟩ := obtained_bounds hP hk hmem
    have hv' := ho v hv _ (translate_of_run B hlow h₀ hrun₁ hrun h₁) hin
    refine ⟨fun w hw h₂ => ?_, fun ht => ?_, fun q hq hw => ?_⟩
    · have hw' := ho w hw _ h₂ hin
      have heq := List.inj_on_of_nodup_map hk.nodupFrames hw' hv' rfl
      exact congrArg Prod.snd heq
    · exact hk.table_ne_page hP (mem_tablesOf.mpr ht) hv' rfl
    · rcases hk.walk hroot hq hw with hlt | ht
      · exact absurd hge (by omega)
      · exact hk.table_ne_page hP ht hv' rfl
  · obtain ⟨hge, hle, -⟩ := obtained_bounds hP hk hmem
    exact ⟨hge, hle⟩

/-- Four pages of a device at `0xfd000000`, mapped right after the sample's bootstrap. -/
theorem frames_never_shared_sample :
    ∃ σ, Run Boot.sample.platform (Mapping Boot.sample.platform) sampleStart σ ∧
      σ.calls = [.mapped (heapStart + 16 * pageSize) 4 0xfd000000 false,
        .mapped heapStart 16 0 true] ∧
      (∀ o ∈ σ.paging.obtained, o.frame ≠ 0) ∧
      ∀ a, .table a ∈ σ.paging.obtained → a + pageSize ≤ 0x200000 := by
  have hq : OutsideFrames Boot.sample.platform 0xfd000000 4 := by
    intro i hi
    right
    rw [physicalAt_eq (by decide) (by simp only [pageSize]; omega),
      frameOf_ofNat (by simp only [pageSize]; omega) (by simp only [pageSize]; omega)]
    simp only [PMM.InFrames, Boot.platform, Boot.sample, pageSize, frameCount, bitmapWords]
    omega
  obtain ⟨σ, -, hrun, -, -, hcalls, -⟩ := sampleStart_mmap (Mapping Boot.sample.platform)
    0xfd000000 4 false hq (by decide)
  obtain ⟨ha, hb, -⟩ := frames_never_shared Boot.sample sampleStart_bootstrapped .refl hrun
  exact ⟨σ, hrun, hcalls, ha, hb⟩

end Vmm
end BootableKernel
