import BootableKernel.Memory.Boot
import Mathlib.Data.Fintype.Card
import Mathlib.Order.Interval.Finset.Nat

/-!
# Where the frames of the heap come from

The bitmap, the page tables and the record of obtained frames are kept in step by
`Frames`. Page tables take the frames `0, 1, …` of the first bitmap word, one for each
directory entry that covers a part of the heap, and there are 63 of these. Data pages
take the frames from the word of `MEM_START` on, one for each heap page that was mapped
without an explicit address, and there are `MAX_HEAP_SIZE` of these. So neither supply
runs out, and the two do not meet.

`Frames` holds whatever physical addresses callers ask for. That no other leaf points
into the allocator's frames, `Owned`, needs these addresses to lie elsewhere.
-/

namespace BootableKernel

/-! ## Heap pages -/

/-- The page addresses of the heap. -/
structure HeapPage (v : ℕ) : Prop where
  ge : heapStart ≤ v
  lt : v < heapEnd
  aligned : v % pageSize = 0

/-- The page addresses from the heap on. -/
structure UpperPage (v : ℕ) : Prop where
  ge : heapStart ≤ v
  lt : v < 2 ^ 48
  aligned : v % pageSize = 0

theorem heapEnd_eq : heapEnd = 0x8000000 := by decide

theorem HeapPage.upper {v : ℕ} (h : HeapPage v) : UpperPage v :=
  ⟨h.ge, by have := h.lt; rw [heapEnd_eq] at this; omega, h.aligned⟩

theorem HeapPage.indices {v : ℕ} (h : HeapPage v) :
    pt4Index v = 0 ∧ pt3Index v = 0 ∧ pt2Index v ≠ 0 ∧ (pt2Index v).val < 64 := by
  have h₁ := h.ge
  have h₂ := h.lt
  rw [heapEnd_eq] at h₂
  simp only [heapStart] at h₁
  simp only [pt4Index, pt3Index, pt2Index, indexAt, Fin.ext_iff, ne_eq]
  simp only [Fin.coe_ofNat_eq_mod]
  omega

/-- Page addresses are told apart by the position of their leaf. -/
theorem leafOf_injective {v w : ℕ} (hv : v % pageSize = 0) (hw : w % pageSize = 0)
    (hv' : v < 2 ^ 48) (hw' : w < 2 ^ 48) (h : Paging.leafOf v = Paging.leafOf w) : v = w := by
  simp only [Paging.leafOf, tablePath, pt4Index, pt3Index, pt2Index, pageIndex, indexAt,
    Prod.mk.injEq, List.cons.injEq, Fin.mk.injEq] at h
  simp only [pageSize] at hv hw
  omega

/-! ## The joint invariant -/

/-- The page-table frames among the obtained ones. -/
def tablesOf (o : List Obtained) : List ℕ :=
  o.filterMap fun
    | .table a => some a
    | .page _ _ => none

/-- The data frames among the obtained ones, with the page each was obtained for. -/
def pagesOf (o : List Obtained) : List (ℕ × ℕ) :=
  o.filterMap fun
    | .table _ => none
    | .page a v => some (a, v)

@[simp] theorem tablesOf_table (a : ℕ) (o : List Obtained) :
    tablesOf (.table a :: o) = a :: tablesOf o := rfl
@[simp] theorem tablesOf_page (a v : ℕ) (o : List Obtained) :
    tablesOf (.page a v :: o) = tablesOf o := rfl
@[simp] theorem pagesOf_table (a : ℕ) (o : List Obtained) :
    pagesOf (.table a :: o) = pagesOf o := rfl
@[simp] theorem pagesOf_page (a v : ℕ) (o : List Obtained) :
    pagesOf (.page a v :: o) = (a, v) :: pagesOf o := rfl

@[simp] theorem mem_tablesOf {o : List Obtained} {a : ℕ} : a ∈ tablesOf o ↔ .table a ∈ o := by
  rw [tablesOf, List.mem_filterMap]
  constructor
  · rintro ⟨x, hx, he⟩
    cases x with
    | table b => exact Option.some.inj he ▸ hx
    | page b v => exact absurd he (by simp)
  · exact fun h => ⟨_, h, rfl⟩

@[simp] theorem mem_pagesOf {o : List Obtained} {x : ℕ × ℕ} :
    x ∈ pagesOf o ↔ .page x.1 x.2 ∈ o := by
  rw [pagesOf, List.mem_filterMap]
  constructor
  · rintro ⟨y, hy, he⟩
    cases y with
    | table b => exact absurd he (by simp)
    | page b v => exact Option.some.inj he ▸ hy
  · exact fun h => ⟨_, h, rfl⟩

/-- The first frame that `pmm_allocate_page` considers. -/
def firstData (P : Platform) : ℕ := 64 * PMM.firstWord P.reservedStart memStart

namespace Paging
variable {P : Platform}

/-- The directory entries over the heap that are present. -/
def heapTables (P : Platform) (σ : Paging) : Finset Index :=
  Finset.univ.filter fun j => j ≠ 0 ∧ j.val < 64 ∧ isPresent (σ.pte P [0, 0] j) = true

/-- The bitmap, the tables and the obtained frames agree. -/
structure Frames (P : Platform) (σ : Paging) : Prop where
  wf : σ.WellFormed P
  p4 : isPresent (σ.pte P [] 0) = true
  p3 : isPresent (σ.pte P [0] 0) = true
  low : ∀ f < 64, PMM.isFree σ.bitmap f = decide ((tablesOf σ.obtained).length ≤ f)
  high : ∀ f, firstData P ≤ f → f < frameCount →
    PMM.isFree σ.bitmap f = decide (firstData P + (pagesOf σ.obtained).length ≤ f)
  tableCount : (tablesOf σ.obtained).length = (σ.heapTables P).card
  tables : ∀ a ∈ tablesOf σ.obtained, ∃ f < (tablesOf σ.obtained).length, a = frame P f
  links : ∀ q i, q.length ≤ 2 → isPresent (σ.pte P q i) = true →
    frameOf (σ.pte P q i) < P.reservedStart ∨ frameOf (σ.pte P q i) ∈ tablesOf σ.obtained
  pages : ∀ x ∈ pagesOf σ.obtained, HeapPage x.2 ∧ isPresent (σ.leaf P x.2) = true ∧
    ∃ k < (pagesOf σ.obtained).length, x.1 = frame P (firstData P + k)
  nodupPages : ((pagesOf σ.obtained).map Prod.snd).Nodup
  nodupFrames : ((pagesOf σ.obtained).map Prod.fst).Nodup

/-- A leaf above the kernel that designates one of the allocator's frames was given
that frame by the allocator. -/
def Owned (P : Platform) (σ : Paging) : Prop :=
  ∀ v, UpperPage v → ∀ a, σ.translate P v = some a → PMM.InFrames P.reservedStart a →
    (a, v) ∈ pagesOf σ.obtained

/-- Between the first two megabytes and the data frames lie one to seven bitmap words. -/
theorem firstData_bounds (hP : P.Valid) :
    64 ≤ firstData P ∧ firstData P + maxHeapSize ≤ frameCount ∧
      P.reservedStart + 4096 * firstData P ≤ 0x200000 := by
  have h₁ := hP.pos
  have h₂ := hP.aligned
  have h₃ := hP.low
  have hw : PMM.firstWord P.reservedStart memStart = (memStart - P.reservedStart) / pageSize / 64 :=
    PMM.firstWord_of_le (by simp only [memStart]; omega) (by decide)
  rw [firstData, hw]
  simp only [memStart, pageSize, maxHeapSize, frameCount, bitmapWords]
  omega

/-! ## The directory levels -/

/-- The books only depend on which directory entries are present and what they designate;
leaves may be added. -/
theorem Frames.congr {σ σ' : Paging} (h : Frames P σ) (hwf : WellFormed P σ')
    (hbit : σ'.bitmap = σ.bitmap) (hobt : σ'.obtained = σ.obtained)
    (hdir : ∀ q j, q.length ≤ 2 → isPresent (σ'.pte P q j) = isPresent (σ.pte P q j) ∧
      (isPresent (σ.pte P q j) = true → frameOf (σ'.pte P q j) = frameOf (σ.pte P q j)))
    (hleaf : ∀ v, isPresent (σ.leaf P v) = true → isPresent (σ'.leaf P v) = true) :
    Frames P σ' := by
  have htab : σ'.heapTables P = σ.heapTables P := by
    simp only [heapTables, (hdir [0, 0] _ (by simp)).1]
  refine ⟨hwf, ?_, ?_, ?_, ?_, ?_, ?_, ?_, ?_, ?_, ?_⟩
  · rw [(hdir [] 0 (by simp)).1, h.p4]
  · rw [(hdir [0] 0 (by simp)).1, h.p3]
  · rw [hbit, hobt]
    exact h.low
  · rw [hbit, hobt]
    exact h.high
  · rw [htab, hobt]
    exact h.tableCount
  · rw [hobt]
    exact h.tables
  · intro q j hq hpr
    rw [(hdir q j hq).1] at hpr
    rw [hobt, (hdir q j hq).2 hpr]
    exact h.links q j hq hpr
  · rw [hobt]
    exact fun x hx => ⟨(h.pages x hx).1, hleaf _ (h.pages x hx).2.1, (h.pages x hx).2.2⟩
  · rw [hobt]
    exact h.nodupPages
  · rw [hobt]
    exact h.nodupFrames

/-- A directory level whose entry was there stays clear of the frames. -/
theorem Frames.dir_kept {σ σ' : Paging} {p : List Index} {i : Index} {k : Bool}
    (h : Frames P σ) (s : DirStep P σ σ' p i k) (hp : p.length < 3)
    (hpres : isPresent (σ.pte P p i) = true) : Frames P σ' := by
  obtain ⟨hframe, hbit, hobt⟩ := s.kept hpres
  refine h.congr s.wf hbit hobt (fun q j hq => ?_) fun v hv => by rw [s.leaf_eq hp]; exact hv
  by_cases he : q = p ∧ j = i
  · rw [he.1, he.2, s.present, hpres, hframe]
    exact ⟨rfl, fun _ => rfl⟩
  · rw [s.view q j (by omega) he]
    exact ⟨rfl, fun _ => rfl⟩

/-- The heap lies under 63 directory entries. -/
theorem heapTables_val {σ : Paging} {i : Index} (hi : i ∈ σ.heapTables P) :
    i.val ∈ Finset.Ico 1 64 := by
  simp only [heapTables, Finset.mem_filter, Finset.mem_univ, true_and] at hi
  exact Finset.mem_Ico.mpr ⟨Nat.pos_of_ne_zero fun hc => hi.1 (Fin.ext hc), hi.2.1⟩

theorem card_heapTables_le (σ : Paging) : (σ.heapTables P).card ≤ 63 := by
  have hle := Finset.card_le_card_of_injOn (s := σ.heapTables P) Fin.val
    (fun _ hi => heapTables_val hi) Fin.val_injective.injOn
  rwa [Nat.card_Ico] at hle

/-- As long as a directory entry over the heap is absent, fewer than 63 are present. -/
theorem card_heapTables_lt {σ : Paging} {j : Index} (hj0 : j ≠ 0) (hj : j.val < 64)
    (habs : isPresent (σ.pte P [0, 0] j) = false) : (σ.heapTables P).card < 63 := by
  have hmap : ∀ i ∈ σ.heapTables P, i.val ∈ (Finset.Ico 1 64).erase j.val := by
    intro i hi
    refine Finset.mem_erase.mpr ⟨fun he => ?_, heapTables_val hi⟩
    simp only [heapTables, Finset.mem_filter, Fin.ext he, habs] at hi
    exact absurd hi.2.2.2 (by simp)
  have hle := Finset.card_le_card_of_injOn Fin.val hmap Fin.val_injective.injOn
  have hmem : j.val ∈ Finset.Ico 1 64 :=
    Finset.mem_Ico.mpr ⟨Nat.pos_of_ne_zero fun hc => hj0 (Fin.ext hc), hj⟩
  rw [Finset.card_erase_of_mem hmem, Nat.card_Ico] at hle
  omega

/-- The lowest free frame is the one after the tables. -/
theorem Frames.eq_length_tablesOf {σ : Paging} (h : Frames P σ) {f : ℕ}
    (hlt : (tablesOf σ.obtained).length < 64) (hfree : PMM.isFree σ.bitmap f = true)
    (hmin : ∀ g < f, PMM.isFree σ.bitmap g = false) : f = (tablesOf σ.obtained).length := by
  have htfree : PMM.isFree σ.bitmap (tablesOf σ.obtained).length = true := by
    rw [h.low _ hlt]
    exact decide_eq_true (Nat.le_refl _)
  have hle : f ≤ (tablesOf σ.obtained).length := by
    by_contra hc
    rw [hmin _ (by omega)] at htfree
    exact absurd htfree (by simp)
  rw [h.low f (by omega)] at hfree
  simp only [decide_eq_true_eq] at hfree
  omega

/-- A table that a directory level creates over the heap. -/
theorem DirStep.heapTables_eq {σ σ' : Paging} {j : Index} {k : Bool}
    (s : DirStep P σ σ' [0, 0] j k) (hj0 : j ≠ 0) (hj : j.val < 64) :
    σ'.heapTables P = insert j (σ.heapTables P) := by
  ext i
  simp only [heapTables, Finset.mem_insert, Finset.mem_filter, Finset.mem_univ, true_and]
  by_cases hi : i = j
  · subst hi
    simp [s.present, hj0, hj]
  · rw [s.view [0, 0] i (by simp) fun hc => hi hc.2]
    simp [hi]

/-- A directory level that creates a table over the heap takes the next low frame. -/
theorem Frames.dir_created {σ σ' : Paging} {j : Index} {k : Bool} (hP : P.Valid)
    (h : Frames P σ) (s : DirStep P σ σ' [0, 0] j k) (hj0 : j ≠ 0) (hj : j.val < 64)
    (habs : isPresent (σ.pte P [0, 0] j) = false) :
    Frames P σ' ∧ σ'.obtained = .table (frame P (tablesOf σ.obtained).length) :: σ.obtained := by
  obtain ⟨f, hf, hfree, hmin, hframe, hbit, hobt⟩ := s.created habs
  have hcount := card_heapTables_lt hj0 hj habs
  rw [← h.tableCount] at hcount
  set t := (tablesOf σ.obtained).length with ht
  obtain ⟨hd64, -, -⟩ := firstData_bounds hP
  obtain rfl : f = t := h.eq_length_tablesOf (by omega) hfree hmin
  have hnotin : j ∉ σ.heapTables P := by simp [heapTables, habs]
  refine ⟨⟨s.wf, ?_, ?_, ?_, ?_, ?_, ?_, ?_, ?_, ?_, ?_⟩, hobt⟩
  · rw [s.view [] 0 (by simp) (by simp)]
    exact h.p4
  · rw [s.view [0] 0 (by simp) (by simp)]
    exact h.p3
  · intro g hg
    rw [hbit g, h.low g hg, hobt, tablesOf_table, List.length_cons, ← ht]
    rw [Bool.eq_iff_iff]
    simp only [Bool.and_eq_true, decide_eq_true_eq]
    omega
  · intro g hg hg'
    rw [hbit g, h.high g hg hg', hobt, pagesOf_table]
    simp only [Bool.and_eq_left_iff_imp, decide_eq_true_eq]
    omega
  · rw [hobt, tablesOf_table, List.length_cons, s.heapTables_eq hj0 hj,
      Finset.card_insert_of_notMem hnotin, h.tableCount]
  · intro a ha
    rw [hobt, tablesOf_table] at ha ⊢
    rw [List.length_cons]
    rcases List.mem_cons.mp ha with rfl | ha
    · exact ⟨t, by omega, rfl⟩
    · obtain ⟨g, hg, he⟩ := h.tables a ha
      exact ⟨g, by omega, he⟩
  · intro q i hq hpr
    rw [hobt, tablesOf_table, List.mem_cons]
    by_cases he : q = [0, 0] ∧ i = j
    · rw [he.1, he.2]
      exact .inr (.inl hframe)
    · rw [s.view q i (by omega) he] at hpr ⊢
      exact (h.links q i hq hpr).imp_right .inr
  · intro x hx
    rw [hobt, pagesOf_table] at hx ⊢
    rw [s.leaf_eq (by simp)]
    exact h.pages x hx
  · rw [hobt, pagesOf_table]
    exact h.nodupPages
  · rw [hobt, pagesOf_table]
    exact h.nodupFrames

/-! ## The leaf level -/

/-- There are `MAX_HEAP_SIZE` heap pages. -/
theorem length_le_of_heapPages {l : List ℕ} (hn : l.Nodup) (h : ∀ v ∈ l, HeapPage v) :
    l.length ≤ maxHeapSize := by
  have hsub : l ⊆ (List.range maxHeapSize).map fun i => heapStart + i * pageSize := by
    intro v hv
    have h₁ := (h v hv).ge
    have h₂ := (h v hv).lt
    have h₃ := (h v hv).aligned
    refine List.mem_map.mpr ⟨(v - heapStart) / pageSize, List.mem_range.mpr ?_, ?_⟩
    · simp only [heapEnd, heapStart, pageSize, maxHeapSize] at *
      omega
    · simp only [heapStart, pageSize] at *
      omega
  simpa using (List.subperm_of_subset hn hsub).length_le

theorem Frames.length_pagesOf_le {σ : Paging} (h : Frames P σ) :
    (pagesOf σ.obtained).length ≤ maxHeapSize := by
  have hle := length_le_of_heapPages h.nodupPages fun v hv => by
    obtain ⟨x, hx, rfl⟩ := List.mem_map.mp hv
    exact (h.pages x hx).1
  rwa [List.length_map] at hle

/-- As long as a heap page has no leaf, fewer than `MAX_HEAP_SIZE` frames were drawn. -/
theorem Frames.length_pagesOf_lt {σ : Paging} (h : Frames P σ) {v : ℕ} (hv : HeapPage v)
    (habs : isPresent (σ.leaf P v) = false) : (pagesOf σ.obtained).length < maxHeapSize := by
  have hnotin : v ∉ (pagesOf σ.obtained).map Prod.snd := by
    intro hmem
    obtain ⟨x, hx, rfl⟩ := List.mem_map.mp hmem
    rw [(h.pages x hx).2.1] at habs
    exact absurd habs (by simp)
  have hle := length_le_of_heapPages (List.nodup_cons.mpr ⟨hnotin, h.nodupPages⟩) fun w hw => by
    rcases List.mem_cons.mp hw with rfl | hw
    · exact hv
    · obtain ⟨x, hx, rfl⟩ := List.mem_map.mp hw
      exact (h.pages x hx).1
  rw [List.length_cons, List.length_map] at hle
  omega

/-- While data frames are left, `pmm_allocate_page` takes the next one. -/
theorem Frames.allocatePage {σ : Paging} (hP : P.Valid) (h : Frames P σ)
    (hlen : (pagesOf σ.obtained).length < maxHeapSize) :
    (PMM.allocatePage P.reservedStart σ.bitmap).1 =
        frame P (firstData P + (pagesOf σ.obtained).length) ∧
      ∀ g, PMM.isFree (PMM.allocatePage P.reservedStart σ.bitmap).2 g =
        (PMM.isFree σ.bitmap g && decide (g ≠ firstData P + (pagesOf σ.obtained).length)) := by
  obtain ⟨-, hmax, -⟩ := firstData_bounds hP
  set d := firstData P + (pagesOf σ.obtained).length with hd
  have hdfree : PMM.isFree σ.bitmap d = true := by
    rw [h.high d (by omega) (by omega)]
    simp [hd]
  rcases PMM.allocatePageFrom_spec P.reservedStart σ.bitmap memStart with
    ⟨f, hge, hlt, hfree, hmin, haddr, hmark⟩ | ⟨hnone, -⟩
  · obtain rfl : f = d := by
      have hle : f ≤ d := by
        by_contra hc
        rw [hmin d (by simp only [firstData] at hd; omega) (by omega)] at hdfree
        exact absurd hdfree (by simp)
      rw [h.high f hge hlt] at hfree
      simp only [decide_eq_true_eq] at hfree
      omega
    exact ⟨haddr, hmark⟩
  · rw [hnone d (by simp only [firstData] at hd; omega) (by omega)] at hdfree
    exact absurd hdfree (by simp)

/-- A data frame that is drawn for a page is entered in the books. -/
theorem Frames.draw_page {σ σ' : Paging} {v : ℕ} (hP : P.Valid) (h : Frames P σ) (hv : HeapPage v)
    (hpres : isPresent (σ.leaf P v) = false) (hwf : WellFormed P σ')
    (hdir : ∀ q j, q.length ≤ 2 → σ'.pte P q j = σ.pte P q j)
    (hleaf : ∀ w, isPresent (σ.leaf P w) = true → isPresent (σ'.leaf P w) = true)
    (hnow : isPresent (σ'.leaf P v) = true)
    (hbit : σ'.bitmap = (PMM.allocatePage P.reservedStart σ.bitmap).2)
    (hobt : σ'.obtained =
      .page (frame P (firstData P + (pagesOf σ.obtained).length)) v :: σ.obtained) :
    Frames P σ' := by
  have htab : σ'.heapTables P = σ.heapTables P := by
    simp only [heapTables, hdir [0, 0] _ (by simp)]
  have hlen := h.length_pagesOf_lt hv hpres
  obtain ⟨-, hmark⟩ := h.allocatePage hP hlen
  obtain ⟨hd64, -, -⟩ := firstData_bounds hP
  refine ⟨hwf, ?_, ?_, ?_, ?_, ?_, ?_, ?_, ?_, ?_, ?_⟩
  · rw [hdir [] 0 (by simp)]
    exact h.p4
  · rw [hdir [0] 0 (by simp)]
    exact h.p3
  · intro g hg
    rw [hbit, hmark g, hobt, tablesOf_page, h.low g hg]
    simp only [Bool.and_eq_left_iff_imp, decide_eq_true_eq]
    omega
  · intro g hg hg'
    rw [hbit, hmark g, hobt, pagesOf_page, h.high g hg hg', List.length_cons, Bool.eq_iff_iff]
    simp only [Bool.and_eq_true, decide_eq_true_eq]
    omega
  · rw [htab, hobt, tablesOf_page]
    exact h.tableCount
  · rw [hobt, tablesOf_page]
    exact h.tables
  · intro q i hq hpr
    rw [hdir q i hq] at hpr ⊢
    rw [hobt, tablesOf_page]
    exact h.links q i hq hpr
  · intro x hx
    rw [hobt, pagesOf_page] at hx ⊢
    rw [List.length_cons]
    rcases List.mem_cons.mp hx with rfl | hx
    · exact ⟨hv, hnow, _, Nat.lt_succ_self _, rfl⟩
    · obtain ⟨h₁, h₂, g, hg, he⟩ := h.pages x hx
      exact ⟨h₁, hleaf _ h₂, g, by omega, he⟩
  · rw [hobt, pagesOf_page, List.map_cons, List.nodup_cons]
    refine ⟨fun hmem => ?_, h.nodupPages⟩
    obtain ⟨x, hx, hxv⟩ := List.mem_map.mp hmem
    have := (h.pages x hx).2.1
    rw [hxv, hpres] at this
    exact absurd this (by simp)
  · rw [hobt, pagesOf_page, List.map_cons, List.nodup_cons]
    refine ⟨fun hmem => ?_, h.nodupFrames⟩
    obtain ⟨x, hx, hxa⟩ := List.mem_map.mp hmem
    obtain ⟨-, -, g, hg, he⟩ := h.pages x hx
    have := frame_injective (he.symm.trans hxa)
    omega

/-- The leaf level of a heap page: a leaf that is created without an address takes the
next data frame, and no other frame changes hands. -/
theorem Frames.leaf_step {σ σ' : Paging} {physical v : ℕ} {k : Bool} (hP : P.Valid)
    (h : Frames P σ) (s : LeafStep P σ σ' physical v k) (hv : HeapPage v) :
    Frames P σ' ∧ (σ'.obtained = σ.obtained ∨
      (isPresent (σ.leaf P v) = false ∧ physical = 0 ∧
        frameOf (σ'.leaf P v) = frame P (firstData P + (pagesOf σ.obtained).length) ∧
        σ'.obtained =
          .page (frame P (firstData P + (pagesOf σ.obtained).length)) v :: σ.obtained)) := by
  have hdir : ∀ q j, q.length ≤ 2 → σ'.pte P q j = σ.pte P q j := by
    intro q j hq
    refine s.view q j (by omega) fun hc => ?_
    rw [hc.1] at hq
    simp [tablePath] at hq
  have hleaf : ∀ w, isPresent (σ.leaf P w) = true → isPresent (σ'.leaf P w) = true := by
    intro w hw
    by_cases he : leafOf w = leafOf v
    · rw [leaf_congr P σ' he, s.present]
    · rw [show σ'.leaf P w = σ.leaf P w from s.view _ _ (by simp [tablePath])
        fun hc => he (Prod.ext hc.1 hc.2)]
      exact hw
  have keep : σ'.bitmap = σ.bitmap → σ'.obtained = σ.obtained → Frames P σ' := fun hbit hobt =>
    h.congr s.wf hbit hobt (fun q j hq => by rw [hdir q j hq]; exact ⟨rfl, fun _ => rfl⟩) hleaf
  cases hpres : isPresent (σ.leaf P v) with
  | true =>
      obtain ⟨-, -, hbit, hobt⟩ := s.kept hpres
      exact ⟨keep hbit hobt, .inl hobt⟩
  | false =>
      by_cases hphys : physical = 0
      · obtain ⟨hnew, hbit, hobt⟩ := s.drawn hpres hphys
        have hlen := h.length_pagesOf_lt hv hpres
        obtain ⟨-, hmax, -⟩ := firstData_bounds hP
        obtain ⟨hal, -, hlt⟩ := frame_facts hP
          (show firstData P + (pagesOf σ.obtained).length < frameCount by omega)
        rw [(h.allocatePage hP hlen).1] at hobt hnew
        refine ⟨h.draw_page hP hv hpres s.wf hdir hleaf s.present hbit hobt,
          .inr ⟨rfl, hphys, ?_, hobt⟩⟩
        rw [hnew, frameOf_or_noExec, frameOf_or_flags, frameOf_ofNat hal hlt]
      · obtain ⟨-, hbit, hobt⟩ := s.given hpres hphys
        exact ⟨keep hbit hobt, .inl hobt⟩

/-! ## Mapping a heap page -/

/-- The walk of a heap page lacks at most one table, and there is a frame for it. -/
theorem Frames.supply {σ : Paging} (h : Frames P σ) {v : ℕ} (hv : HeapPage v) :
    σ.lackingTables P v ≤ σ.freeFrames.card := by
  obtain ⟨h4, h3, h2, h2'⟩ := hv.indices
  rw [lackingTables, h4, h3, absent_eq_zero h.p4, absent_eq_zero h.p3]
  cases hp : isPresent (σ.pte P [0, 0] (pt2Index v)) with
  | true =>
      rw [absent_eq_zero hp]
      omega
  | false =>
      rw [absent_eq_one hp]
      have hcount := card_heapTables_lt h2 h2' hp
      rw [← h.tableCount] at hcount
      refine Finset.card_pos.mpr ⟨(tablesOf σ.obtained).length, ?_⟩
      rw [freeFrames, Finset.mem_filter, Finset.mem_range, h.low _ (by omega)]
      simp only [frameCount, bitmapWords]
      exact ⟨by omega, by simp⟩

/-- What happens to the record of drawn frames when `v` is mapped: nothing if `v` had a
leaf or the caller gave an address, else the new leaf gets a drawn frame. -/
def Draws (P : Platform) (σ σ' : Paging) (physical v : ℕ) : Prop :=
  (pagesOf σ'.obtained = pagesOf σ.obtained ∧
    (isPresent (σ.leaf P v) = true ∨ physical ≠ 0)) ∨
  (isPresent (σ.leaf P v) = false ∧ physical = 0 ∧
    pagesOf σ'.obtained = (frameOf (σ'.leaf P v), v) :: pagesOf σ.obtained)

/-- Drawn frames stay on record. -/
theorem Draws.subset {σ σ' : Paging} {physical v : ℕ} (h : Draws P σ σ' physical v) :
    pagesOf σ.obtained ⊆ pagesOf σ'.obtained := by
  intro x hx
  rcases h with ⟨he, -⟩ | ⟨-, -, he⟩
  · rw [he]
    exact hx
  · rw [he]
    exact List.mem_cons_of_mem _ hx

/-- **`vmm_map_memory` on a heap page keeps the books.** -/
theorem Frames.map {σ : Paging} (hP : P.Valid) (h : Frames P σ) {v : ℕ} (hv : HeapPage v)
    (physical : ℕ) (k : Bool) :
    Frames P (σ.vmmMapMemory P physical v (mapFlags k)) ∧
      MapStep P σ (σ.vmmMapMemory P physical v (mapFlags k)) physical v k ∧
      Draws P σ (σ.vmmMapMemory P physical v (mapFlags k)) physical v := by
  obtain ⟨σ₁, σ₂, σ₃, s₁, s₂, s₃, s₄, -⟩ :=
    vmmMapMemory_steps hP h.wf physical v k (h.supply hv)
  have hmap := mapStep_of_steps s₁ s₂ s₃ s₄
  obtain ⟨h4, h3, h2, h2'⟩ := hv.indices
  rw [h4] at s₁ s₂ s₃
  rw [h3] at s₂ s₃
  have f₁ := h.dir_kept s₁ (by simp) h.p4
  have o₁ := (s₁.kept h.p4).2.2
  have f₂ := f₁.dir_kept s₂ (by simp) f₁.p3
  have o₂ := (s₂.kept f₁.p3).2.2
  have hleaf : σ₃.leaf P v = σ.leaf P v := by
    rw [s₃.leaf_eq (by simp), s₂.leaf_eq (by simp), s₁.leaf_eq (by simp)]
  obtain ⟨f₃, o₃⟩ : Frames P σ₃ ∧ pagesOf σ₃.obtained = pagesOf σ.obtained := by
    cases hp : isPresent (σ₂.pte P [0, 0] (pt2Index v)) with
    | true =>
        refine ⟨f₂.dir_kept s₃ (by simp) hp, ?_⟩
        rw [(s₃.kept hp).2.2, o₂, o₁]
    | false =>
        obtain ⟨f₃, o₃⟩ := f₂.dir_created hP s₃ h2 h2' hp
        refine ⟨f₃, ?_⟩
        rw [o₃, pagesOf_table, o₂, o₁]
  obtain ⟨f₄, o₄⟩ := f₃.leaf_step hP s₄ hv
  refine ⟨f₄, hmap, ?_⟩
  rw [hleaf] at o₄
  rcases o₄ with o₄ | ⟨habs, hphys, hframe, o₄⟩
  · rw [Draws, o₄, o₃]
    refine .inl ⟨rfl, ?_⟩
    by_contra hc
    rw [not_or, Bool.not_eq_true, not_not] at hc
    have hd := (s₄.drawn (by rw [hleaf]; exact hc.1) hc.2).2.2
    rw [o₄] at hd
    exact absurd (congrArg List.length hd) (by simp)
  · refine .inr ⟨habs, hphys, ?_⟩
    rw [o₄, pagesOf_page, hframe, o₃]

/-- The leaves of other pages stay as they are. -/
theorem MapStep.leaf_other {σ σ' : Paging} {physical v : ℕ} {k : Bool}
    (s : MapStep P σ σ' physical v k) {w : ℕ} (he : leafOf w ≠ leafOf v) :
    σ'.leaf P w = σ.leaf P w :=
  s.view (leafOf w) (by simp [leafOf, tablePath]) (leafOf_not_mem_dirsOf v w) he

/-- A leaf keeps its frame when some page is mapped. -/
theorem MapStep.translate_kept {σ σ' : Paging} {physical v : ℕ} {k : Bool}
    (s : MapStep P σ σ' physical v k) {w a : ℕ} (ha : σ.translate P w = some a) :
    σ'.translate P w = some a := by
  have hpres : isPresent (σ.leaf P w) = true := by
    by_contra hc
    rw [translate, target, if_neg hc] at ha
    exact absurd ha (by simp)
  by_cases he : leafOf w = leafOf v
  · rw [translate, leaf_congr P _ he] at ha ⊢
    rw [leaf_congr P σ he] at hpres
    rw [target_of_present hpres] at ha
    rw [target_of_present s.present, (s.kept hpres).1, ha]
  · rw [translate, s.leaf_other he]
    exact ha

/-- The frame address `physical` designates is none of the allocator's, or there is no
address. -/
def OutsideFrame (P : Platform) (physical : ℕ) : Prop :=
  physical = 0 ∨ ¬ PMM.InFrames P.reservedStart (frameOf (BitVec.ofNat 64 physical))

theorem Owned.map {σ σ' : Paging} {physical v : ℕ} {k : Bool} (h : Owned P σ)
    (s : MapStep P σ σ' physical v k) (hd : Draws P σ σ' physical v) (hv : HeapPage v)
    (hout : OutsideFrame P physical) : Owned P σ' := by
  have hsub := hd.subset
  intro w hw a ha hin
  by_cases hwv : w = v
  · subst hwv
    cases hpres : isPresent (σ.leaf P w) with
    | true =>
        have hold : σ.translate P w = some a := by
          rw [translate, target_of_present hpres, ← (s.kept hpres).1,
            ← target_of_present s.present]
          exact ha
        exact hsub (h w hw a hold hin)
    | false =>
        have hfr : frameOf (σ'.leaf P w) = a := by
          rw [translate, target_of_present s.present] at ha
          exact Option.some.inj ha
        rcases hd with ⟨-, hor⟩ | ⟨-, -, he⟩
        · -- The caller's address was installed, which is none of the allocator's.
          have hphys : physical ≠ 0 := by simpa [hpres] using hor
          rw [s.given hpres hphys, frameOf_or_noExec, frameOf_or_flags] at hfr
          rcases hout with hz | hnot
          · exact absurd hz hphys
          · rw [hfr] at hnot
            exact absurd hin hnot
        · rw [he, hfr]
          exact List.mem_cons_self ..
  · have hne : leafOf w ≠ leafOf v := fun he =>
      hwv (leafOf_injective hw.aligned hv.aligned hw.lt hv.upper.lt he)
    have hold : σ.translate P w = some a := by
      rw [translate, ← s.leaf_other hne]
      exact ha
    exact hsub (h w hw a hold hin)

/-! ## Where obtained frames lie -/

/-- Every table below the root is one of `boot` or was obtained from the physical memory
manager. -/
def Linked (P : Platform) (boot : Set ℕ) (σ : Paging) : Prop :=
  ∀ q i, q.length ≤ 2 → isPresent (σ.pte P q i) = true →
    frameOf (σ.pte P q i) ∈ boot ∨ frameOf (σ.pte P q i) ∈ tablesOf σ.obtained

theorem Linked.walk {boot : Set ℕ} {σ : Paging} (h : Linked P boot σ) (hroot : P.pt4 ∈ boot)
    {q : List Index} {a : ℕ} (hq : q.length ≤ 3)
    (hw : Radix.walk target σ.mem P.pt4 q = some a) : a ∈ boot ∨ a ∈ tablesOf σ.obtained := by
  rcases List.eq_nil_or_concat q with rfl | ⟨q', i, rfl⟩
  · rw [Radix.walk_nil, Option.some.injEq] at hw
    exact .inl (hw ▸ hroot)
  · rw [List.concat_eq_append] at hq hw
    rw [walk_snoc] at hw
    have hpres : isPresent (σ.pte P q' i) = true := by
      by_contra hc
      rw [target, if_neg hc] at hw
      exact absurd hw (by simp)
    rw [target_of_present hpres, Option.some.injEq] at hw
    have hlink := h q' i (by simp at hq; omega) hpres
    rwa [hw] at hlink

/-- A table that some path leads to is a boot table or was obtained. -/
theorem Frames.walk {σ : Paging} (h : Frames P σ) (hroot : P.pt4 < P.reservedStart)
    {q : List Index} {a : ℕ} (hq : q.length ≤ 3)
    (hw : Radix.walk target σ.mem P.pt4 q = some a) :
    a < P.reservedStart ∨ a ∈ tablesOf σ.obtained := by
  have hlinks : Linked P {a | a < P.reservedStart} σ := h.links
  exact hlinks.walk hroot hq hw

theorem Frames.table_lt {σ : Paging} (h : Frames P σ) {a : ℕ} (ha : a ∈ tablesOf σ.obtained) :
    ∃ f < 63, a = frame P f := by
  obtain ⟨f, hf, he⟩ := h.tables a ha
  have := card_heapTables_le (P := P) σ
  rw [← h.tableCount] at this
  exact ⟨f, by omega, he⟩

theorem Frames.page_lt {σ : Paging} (h : Frames P σ) {x : ℕ × ℕ} (hx : x ∈ pagesOf σ.obtained) :
    ∃ k < maxHeapSize, x.1 = frame P (firstData P + k) := by
  obtain ⟨-, -, k, hk, he⟩ := h.pages x hx
  exact ⟨k, lt_of_lt_of_le hk h.length_pagesOf_le, he⟩

/-- No frame serves both as a page table and behind a page. -/
theorem Frames.table_ne_page {σ : Paging} (hP : P.Valid) (h : Frames P σ) {a : ℕ} {x : ℕ × ℕ}
    (ha : a ∈ tablesOf σ.obtained) (hx : x ∈ pagesOf σ.obtained) : a ≠ x.1 := by
  obtain ⟨f, hf, rfl⟩ := h.table_lt ha
  obtain ⟨k, -, he⟩ := h.page_lt hx
  obtain ⟨h64, -, -⟩ := firstData_bounds hP
  rw [he]
  intro hc
  have := frame_injective hc
  omega

end Paging
end BootableKernel
