import BootableKernel.Memory.History
import BootableKernel.Syscalls.Handlers

/-!
# The memory that `mmap` grants

`mmap` maps `length / PAGE_SIZE` pages, without the last one if the length is not a
multiple of the page size, and returns what `vmm_mmap` returned, which is null when the
heap has no room. With an address it maps nothing at all. `backed_iff` says for which
requests the caller nevertheless gets the bytes it asked for; over a sequence of such
requests no byte is granted twice.
-/

namespace BootableKernel

open LinkedList Paging Vmm

/-- The heap lies far below the addresses a word can hold. -/
theorem HeapPage.lt_two_pow {v : ℕ} (h : HeapPage v) : v < 2 ^ 46 := by
  have := h.lt
  rw [heapEnd_eq] at this
  omega

theorem HeapPage.toNat_ofNat {v : ℕ} (h : HeapPage v) : (BitVec.ofNat 64 v).toNat = v := by
  have := h.lt_two_pow
  rw [BitVec.toNat_ofNat, Nat.mod_eq_of_lt (by omega)]

namespace Paging
variable {P : Platform}

/-! ## Access to the bytes of a page -/

/-- All bytes of a page share its four entries. -/
theorem entriesOf_add {v r : ℕ} (hv : v % pageSize = 0) (hr : r < pageSize) :
    entriesOf (v + r) = entriesOf v := by
  simp only [pageSize] at hv hr
  have hidx : ∀ k, 12 ≤ k → indexAt k (v + r) = indexAt k v := by
    intro k hk
    have hdiv : (v + r) / 2 ^ k = v / 2 ^ k := by
      obtain ⟨j, rfl⟩ := Nat.exists_eq_add_of_le hk
      rw [Nat.pow_add, ← Nat.div_div_eq_div_mul, ← Nat.div_div_eq_div_mul]
      congr 1
      omega
    simp only [indexAt, hdiv]
  simp only [entriesOf, dirsOf, leafOf, tablePath, pt4Index, pt3Index, pt2Index, pageIndex,
    hidx 39 (by decide), hidx 30 (by decide), hidx 21 (by decide), hidx 12 (by decide)]

theorem userAccessible_add {σ : Paging} {v r : ℕ} (hv : v % pageSize = 0) (hr : r < pageSize) :
    σ.userAccessible P (v + r) = σ.userAccessible P v := by
  rw [Bool.eq_iff_iff, userAccessible_iff, userAccessible_iff, entriesOf_add hv hr]

/-- The pages of a range mapped for user code are open to ring 3. -/
theorem Frames.ensure_accessible {σ : Paging} (hP : P.Valid) (h : Frames P σ) {v n physical : ℕ}
    (hv : HeapRange v n) (hal : physical % pageSize = 0) {i : ℕ} (hi : i < n) :
    (σ.ensurePagesMapped P (mapFlags false) n physical v).userAccessible P (v + i * pageSize) =
      true := by
  have hw := h.ensure_written hP hv physical false
  rw [userAccessible_iff]
  intro x hx
  rcases List.mem_append.mp hx with hx | hx
  · obtain ⟨hp, hu⟩ := hw.dirs i hi x hx
    rw [opens, hp, hu]
    rfl
  · rw [List.mem_singleton.mp hx]
    have hp := (hw.leaves i hi).1
    have hu := h.ensure_user hP hv hal false hi
    rw [Paging.leaf] at hp hu
    rw [opens, leafOf, hp, hu]
    rfl

theorem HeapRange.size_lt {v n : ℕ} (h : HeapRange v n) : n * pageSize < 2 ^ 46 := by
  rcases Nat.eq_zero_or_pos n with rfl | hn
  · rw [Nat.zero_mul]
    decide
  · have hlast := (h (n - 1) (by omega)).lt
    rw [heapEnd_eq] at hlast
    simp only [pageSize] at *
    omega

end Paging

namespace Syscalls

/-! ## Requests -/

/-- A call of `mmap` with offset 0 for at least one byte, anonymous or on `/dev/mem`. -/
structure MmapCall where
  addr : Word
  length : Word
  fd : BitVec 32
  length_pos : 0 < length.toNat
  fd_cases : fd = -1 ∨ fd = 0xdeadbeef

/-- A call that returned `ptr`, between these states. -/
structure Grant where
  call : MmapCall
  ptr : Word
  before : Vmm
  after : Vmm

/-- The byte at `x` lies in a page that the call between the two states mapped, open to
ring 3. -/
def MappedBy (P : Platform) (σ σ' : Vmm) (x : Word) : Prop :=
  ∃ start pages physical, σ'.calls = .mapped start pages physical false :: σ.calls ∧
    (⟨start, pages⟩ : Span).covers pageSize (x.toNat / pageSize * pageSize) = true ∧
    σ'.paging.accessible P x = true

/-- If the call did not fail, the caller has the bytes it asked for. -/
def Grant.Backed (P : Platform) (g : Grant) : Prop :=
  g.ptr ≠ -1 → ∀ k < g.call.length.toNat, MappedBy P g.before g.after (g.ptr + BitVec.ofNat 64 k)

/-- If neither call failed, their bytes are different ones. -/
def Grant.Apart (g h : Grant) : Prop :=
  g.ptr ≠ -1 → h.ptr ≠ -1 → ∀ k < g.call.length.toNat, ∀ l < h.call.length.toNat,
    g.ptr + BitVec.ofNat 64 k ≠ h.ptr + BitVec.ofNat 64 l

/-- A free block has room for `n` pages. -/
def Room (σ : Vmm) (n : ℕ) : Prop :=
  ∃ xs, Chain σ.nodes σ.blockchain xs ∧ ∃ b ∈ blocks xs, n ≤ b.size

/-- The requests that are served as they should be: a request without an address is for
whole pages, and there is room for them; a request with one is refused. -/
def MmapCall.Sound (σ : Vmm) (c : MmapCall) : Prop :=
  (c.addr = 0 → pageSize ∣ c.length.toNat ∧ Room σ (c.length.toNat / pageSize)) ∧
  (c.addr ≠ 0 → c.fd = 0xdeadbeef → c.addr.toNat % pageSize ≠ 0)

variable {vbe : VbeInfo} {P : Platform} {kmalloc : KMalloc}

/-- There is room exactly if first fit finds it. -/
theorem room_iff {σ : Vmm} {xs : List (ℕ × Span)} (h : Chain σ.nodes σ.blockchain xs) {n : ℕ} :
    Room σ n ↔ ¬ FreeList.take pageSize n (blocks xs) = none := by
  rw [FreeList.take_eq_none]
  push Not
  constructor
  · rintro ⟨ys, hys, hroom⟩
    rwa [h.unique hys]
  · exact fun hroom => ⟨xs, h, hroom⟩

/-- Where nothing was mapped, no byte was. -/
theorem not_mappedBy_self {σ : Vmm} {x : Word} : ¬ MappedBy P σ σ x := by
  rintro ⟨start, pages, physical, hcalls, -⟩
  exact absurd (congrArg List.length hcalls) (by simp)

/-- The blocks of a coalesced list are not empty, so what first fit returns is a free page
even for an empty request. -/
theorem covered_take_start {σ : Vmm} {xs : List (ℕ × Span)} (h : Ordered σ xs) {n s : ℕ}
    {l : List Span} (ht : FreeList.take pageSize n (blocks xs) = some (s, l)) :
    Covered (blocks xs) s := by
  obtain ⟨l₁, b, r, hxs, -, -, rfl, -⟩ := FreeList.exists_of_take ht
  have hb : b ∈ blocks xs := by rw [hxs]; simp
  exact ⟨b, hb, (Span.covers_iff pageSize_pos).mpr ⟨0, h.coalesced.nonempty b hb, by simp⟩⟩

theorem heapPage_take {σ : Vmm} {xs : List (ℕ × Span)} (h : Ordered σ xs) {n s : ℕ} {l : List Span}
    (ht : FreeList.take pageSize n (blocks xs) = some (s, l)) : HeapPage s := by
  obtain ⟨b, hb, hc⟩ := covered_take_start h ht
  exact heapPage_of_covers (h.toLedger.heap_of_covers (List.mem_append_left _ hb) hc)

/-- What `mapPages` does. -/
theorem mapPages_result {physical pages : ℕ} {σ σ' : Vmm} {p : Word} {xs : List (ℕ × Span)}
    (h : Ordered σ xs) (hr : (mapPages P kmalloc physical pages 0 σ).result = .ok (p, σ')) :
    (p = 0 ∧ σ' = σ ∧ ¬ Room σ pages) ∨
    ∃ s l ys, p = BitVec.ofNat 64 s ∧ Room σ pages ∧
      FreeList.take pageSize pages (blocks xs) = some (s, l) ∧ HeapPage s ∧ HeapRange s pages ∧
      Ordered σ' ys ∧ σ.vmmMmap P kmalloc physical pages false = .ok (s, σ') ∧
      σ'.calls = .mapped s pages physical false :: σ.calls ∧
      σ'.paging = σ.paging.ensurePagesMapped P (mapFlags false) pages physical s := by
  rw [mapPages] at hr
  split at hr
  · exact absurd hr (by simp)
  · rename_i s τ hm
    rw [Except.ok.injEq, Prod.mk.injEq] at hr
    obtain ⟨rfl, rfl⟩ := hr
    rcases h.toLedger.mmap hm with ⟨rfl, rfl, hnone⟩ | ⟨ys, hl, htake, -, hcalls, hpaging⟩
    · refine .inl ⟨rfl, rfl, ?_⟩
      rw [room_iff h.chain, not_not]
      exact hnone
    · have hroom : Room σ pages := by
        rw [room_iff h.chain, htake]
        simp
      exact .inr ⟨s, _, ys, BitVec.add_zero _, hroom, htake, heapPage_take h htake,
        h.toLedger.heapRange_take htake, ⟨hl, h.coalesced.take htake⟩, hm, hcalls, hpaging⟩

/-- The bytes of a range, as words. -/
theorem toNat_add_ofNat {a : Word} {k : ℕ} (h : a.toNat + k < 2 ^ 64) :
    (a + BitVec.ofNat 64 k).toNat = a.toNat + k := by
  rw [BitVec.toNat_add, BitVec.toNat_ofNat, Nat.mod_eq_of_lt (show k < 2 ^ 64 by omega),
    Nat.mod_eq_of_lt h]

/-- The bytes of the pages that `vmm_mmap` mapped for user code, and no others, are mapped by
the call. -/
theorem mappedBy_iff {σ σ' : Vmm} {s n physical k : ℕ} (hP : P.Valid) (hf : Frames P σ.paging)
    (hs : HeapPage s) (hrange : HeapRange s n) (hlt : k < 2 ^ 46)
    (hal : physical % pageSize = 0) (hcalls : σ'.calls = .mapped s n physical false :: σ.calls)
    (hpaging : σ'.paging = σ.paging.ensurePagesMapped P (mapFlags false) n physical s) :
    MappedBy P σ σ' (BitVec.ofNat 64 s + BitVec.ofNat 64 k) ↔ k < n * pageSize := by
  have hend : s + k < 2 ^ 47 := by
    have := hs.lt_two_pow
    omega
  have hx : (BitVec.ofNat 64 s + BitVec.ofNat 64 k).toNat = s + k := by
    rw [toNat_add_ofNat, hs.toNat_ofNat]
    rw [hs.toNat_ofNat]
    omega
  have hpage : (s + k) / pageSize * pageSize = s + k / pageSize * pageSize := by
    have := hs.aligned
    simp only [pageSize] at *
    omega
  constructor
  · rintro ⟨start, pages, q, hcalls', hcov, -⟩
    rw [hcalls] at hcalls'
    injection hcalls' with hcall
    injection hcall with h₁ h₂
    subst h₁ h₂
    rw [hx, hpage, Span.covers_iff pageSize_pos] at hcov
    obtain ⟨j, hj, hjk⟩ := hcov
    simp only [pageSize] at *
    omega
  · intro hk
    have hi : k / pageSize < n := Nat.div_lt_of_lt_mul (by rwa [Nat.mul_comm])
    refine ⟨s, n, physical, hcalls, ?_, ?_⟩
    · rw [hx, hpage, Span.covers_iff pageSize_pos]
      exact ⟨_, hi, rfl⟩
    · have hsplit : s + k = s + k / pageSize * pageSize + k % pageSize := by
        have := Nat.div_add_mod k pageSize
        rw [Nat.mul_comm] at this
        omega
      rw [accessible, canonical_of_lt (by rw [hx]; exact hend), hx, hpaging, hsplit,
        userAccessible_add (hrange _ hi).aligned (Nat.mod_lt _ pageSize_pos),
        hf.ensure_accessible hP hrange hal hi]
      rfl

/-- A request that reaches `vmm_mmap` is served as it should be exactly if it is for whole
pages and there is room for them. -/
theorem mapPages_backed_iff {physical : ℕ} {σ σ' : Vmm} {p : Word} {length : ℕ}
    {xs : List (ℕ × Span)} (hP : P.Valid) (h : Ordered σ xs) (hf : Frames P σ.paging)
    (hal : physical % pageSize = 0) (hpos : 0 < length)
    (hr : (mapPages P kmalloc physical (length / pageSize) 0 σ).result = .ok (p, σ')) :
    (p ≠ -1 → ∀ k < length, MappedBy P σ σ' (p + BitVec.ofNat 64 k)) ↔
      pageSize ∣ length ∧ Room σ (length / pageSize) := by
  rcases mapPages_result h hr with
    ⟨rfl, rfl, hroom⟩ | ⟨s, -, ys, rfl, hroom, -, hs, hrange, -, -, hcalls, hpaging⟩
  · refine iff_of_false (fun hall => ?_) fun hc => hroom hc.2
    exact not_mappedBy_self (hall (by decide) 0 hpos)
  · have hne : BitVec.ofNat 64 s ≠ -1 := by
      intro hc
      have hlt := hs.lt_two_pow
      rw [← hs.toNat_ofNat, hc] at hlt
      exact absurd hlt (by decide)
    have hsize := hrange.size_lt
    constructor
    · intro hall
      refine ⟨?_, hroom⟩
      by_contra hdvd
      -- The byte after the last whole page.
      have hlast : length / pageSize * pageSize < length := by
        have := Nat.div_mul_le_self length pageSize
        have hne' : length / pageSize * pageSize ≠ length := fun he => hdvd ⟨_, by rw [Nat.mul_comm, he]⟩
        omega
      have := (mappedBy_iff hP hf hs hrange hsize hal hcalls hpaging).mp (hall hne _ hlast)
      omega
    · rintro ⟨hdvd, -⟩ - k hk
      have hlen := Nat.div_mul_cancel hdvd
      exact (mappedBy_iff hP hf hs hrange (by omega) hal hcalls hpaging).mpr (by omega)

/-- The frame buffer is mapped from a page boundary on. -/
theorem physicalBuffer_aligned (b : BitVec 32) : (b &&& 0xfffff000).toNat % pageSize = 0 := by
  rw [toNat_and_field b (show _ = (2 ^ 20 - 1) * 2 ^ 12 by decide)]
  exact Nat.mul_mod_left _ _

/-- Which branch of `mmap` a request takes. -/
theorem mmap_result {c : MmapCall} {σ σ' : Vmm} {p : Word}
    (hr : (mmap vbe P kmalloc c.addr c.length c.fd 0 σ).result = .ok (p, σ')) :
    (c.addr = 0 ∧ ∃ physical, physical % pageSize = 0 ∧
      (mapPages P kmalloc physical (c.length.toNat / pageSize) 0 σ).result = .ok (p, σ')) ∨
    (c.addr ≠ 0 ∧ σ' = σ ∧ p = -1 ∧ (c.fd = 0xdeadbeef → c.addr.toNat % pageSize ≠ 0)) ∨
    (c.addr ≠ 0 ∧ σ' = σ ∧ p = c.addr ∧ c.fd = 0xdeadbeef ∧ c.addr.toNat % pageSize = 0) := by
  by_cases haddr : c.addr = 0
  · refine .inl ⟨haddr, ?_⟩
    rcases c.fd_cases with hfd | hfd
    · refine ⟨0, Nat.zero_mod _, ?_⟩
      simpa [mmap, haddr, hfd] using hr
    · refine ⟨_, physicalBuffer_aligned vbe.physicalBuffer, ?_⟩
      simpa [mmap, haddr, hfd] using hr
  · right
    rw [mmap, if_neg fun hc => haddr hc.2] at hr
    by_cases hal : c.addr.toNat % pageSize = 0
    · rw [if_neg (not_not_intro hal)] at hr
      by_cases hfd : c.fd = 0xdeadbeef
      · rw [if_neg (not_not_intro hfd), if_neg haddr, Except.ok.injEq, Prod.mk.injEq] at hr
        exact .inr ⟨haddr, hr.2.symm, hr.1.symm.trans (BitVec.add_zero _), hfd, hal⟩
      · rw [if_pos hfd, Except.ok.injEq, Prod.mk.injEq] at hr
        exact .inl ⟨haddr, hr.2.symm, hr.1.symm, fun hc => absurd hc hfd⟩
    · rw [if_pos hal, Except.ok.injEq, Prod.mk.injEq] at hr
      exact .inl ⟨haddr, hr.2.symm, hr.1.symm, fun _ => hal⟩

/-- **A single call.** The caller gets the bytes it asked for exactly if the request is sound. -/
theorem backed_iff {c : MmapCall} {σ σ' : Vmm} {p : Word} {xs : List (ℕ × Span)} (hP : P.Valid)
    (h : Ordered σ xs) (hf : Frames P σ.paging)
    (hr : (mmap vbe P kmalloc c.addr c.length c.fd 0 σ).result = .ok (p, σ')) :
    Grant.Backed P ⟨c, p, σ, σ'⟩ ↔ c.Sound σ := by
  rcases mmap_result hr with ⟨haddr, physical, hal, hm⟩ | ⟨haddr, rfl, rfl, hno⟩ |
    ⟨haddr, rfl, rfl, hfd, hal⟩
  · rw [Grant.Backed, mapPages_backed_iff hP h hf hal c.length_pos hm, MmapCall.Sound]
    constructor
    · intro hc
      exact ⟨fun _ => hc, fun hne => absurd haddr hne⟩
    · intro hc
      exact hc.1 haddr
  · apply iff_of_true
    · intro hne
      exact absurd rfl hne
    · exact ⟨fun hc => absurd hc haddr, fun _ => hno⟩
  · -- The address comes back, and nothing was mapped.
    apply iff_of_false
    · intro hall
      refine not_mappedBy_self (hall ?_ 0 c.length_pos)
      intro hc
      rw [show (⟨c, c.addr, σ', σ'⟩ : Grant).ptr = c.addr from rfl] at hc
      rw [hc] at hal
      exact absurd hal (by decide)
    · intro hc
      exact hc.2 haddr hfd hal

/-! ## Sequences of calls -/

/-- What the kernel does on its own account between the calls. It does not free a range that it
granted. -/
def OwnAccount (gs : List Grant) (σ : Vmm) : Request → Prop
  | .free start pages supply =>
      Vmm.Served σ (.free start pages supply) ∧ ∀ g ∈ gs, g.ptr.toNat ≠ start
  | q => Vmm.Served σ q

/-- A sequence of calls of `mmap` from `σ₀` to `σ`, the most recent first, with requests of
the kernel itself between them. -/
inductive Trace (vbe : VbeInfo) (P : Platform) (σ₀ : Vmm) : List Grant → Vmm → Prop
  | start : Trace vbe P σ₀ [] σ₀
  | call {gs : List Grant} {σ σ' : Vmm} (c : MmapCall) (p : Word) (kmalloc : KMalloc)
      (before : Trace vbe P σ₀ gs σ)
      (result : (mmap vbe P kmalloc c.addr c.length c.fd 0 σ).result = .ok (p, σ')) :
      Trace vbe P σ₀ (⟨c, p, σ, σ'⟩ :: gs) σ'
  | kernel {gs : List Grant} {σ σ' : Vmm} (before : Trace vbe P σ₀ gs σ)
      (step : Step P (OwnAccount gs) σ σ') : Trace vbe P σ₀ gs σ'

theorem OwnAccount.served {gs : List Grant} {σ : Vmm} {q : Request} (h : OwnAccount gs σ q) :
    Vmm.Served σ q := by
  cases q with
  | free start pages supply => exact h.1
  | mmap physical pages isKernel supply => exact h
  | setPermission addr isOs isWritable isExecutable => exact h

/-- The range of pages that a call got. -/
def Grant.span (g : Grant) : Span := ⟨g.ptr.toNat, g.call.length.toNat / pageSize⟩

/-- What holds after a sequence of calls: what was granted is still outstanding. -/
structure Issued (P : Platform) (gs : List Grant) (σ : Vmm) : Prop where
  ordered : ∃ xs, Ordered σ xs
  kept : Kept P σ.paging
  granted : ∀ g ∈ gs, g.call.Sound g.before → g.ptr ≠ -1 →
    g.call.addr = 0 ∧ g.span ∈ outstanding σ.calls

theorem Issued.kernel {gs : List Grant} {σ σ' : Vmm} (hP : P.Valid) (h : Issued P gs σ)
    (hs : Step P (OwnAccount gs) σ σ') : Issued P gs σ' := by
  obtain ⟨xs, hxs⟩ := h.ordered
  have hstep : Step P Vmm.Served σ σ' := hs.mono fun _ _ => OwnAccount.served
  have he := hxs.toLedger.effect hs
  refine ⟨hxs.step hstep, he.kept hP (fun _ _ _ _ _ h => h) h.kept, fun g hg hsound hne => ?_⟩
  obtain ⟨haddr, hold⟩ := h.granted g hg hsound hne
  refine ⟨haddr, ?_⟩
  cases he with
  | refused _ hc => exact hc ▸ hold
  | mapped _ _ _ _ _ _ _ _ hc => exact hc ▸ List.mem_cons_of_mem _ hold
  | freed x supply ha _ _ hc =>
      rw [hc, outstanding_freed]
      exact (List.mem_erase_of_ne fun he => ha.2 g hg (congrArg Span.start he)).mpr hold
  | freedGrown x supply k start ha _ _ _ hc =>
      rw [hc, outstanding_freed]
      exact (List.mem_erase_of_ne fun he => ha.2 g hg (congrArg Span.start he)).mpr
        (List.mem_cons_of_mem _ hold)
  | permitted _ _ _ _ _ _ hc => exact hc ▸ hold

/-- The effect of a call on the books. -/
theorem Issued.call {gs : List Grant} {σ σ' : Vmm} {c : MmapCall} {p : Word} (hP : P.Valid)
    (h : Issued P gs σ)
    (hr : (mmap vbe P kmalloc c.addr c.length c.fd 0 σ).result = .ok (p, σ')) :
    Issued P (⟨c, p, σ, σ'⟩ :: gs) σ' := by
  obtain ⟨xs, hxs⟩ := h.ordered
  rcases mmap_result hr with ⟨haddr, physical, hal, hm⟩ | ⟨haddr, rfl, rfl, hno⟩ |
    ⟨haddr, rfl, rfl, hfd, hal⟩
  · rcases mapPages_result hxs hm with
      ⟨rfl, rfl, hroom⟩ | ⟨s, -, ys, rfl, -, -, hs, hrange, hys, -, hcalls, hpaging⟩
    · refine ⟨h.ordered, h.kept, List.forall_mem_cons.mpr ⟨fun hsound => ?_, h.granted⟩⟩
      exact absurd (hsound.1 haddr).2 hroom
    · refine ⟨⟨ys, hys⟩, hpaging ▸ h.kept.ensure hP hrange physical false, ?_⟩
      rw [hcalls]
      refine List.forall_mem_cons.mpr ⟨fun _ _ => ⟨haddr, ?_⟩, fun g hg hsound hne =>
        (h.granted g hg hsound hne).imp_right (List.mem_cons_of_mem _)⟩
      rw [Grant.span, hs.toNat_ofNat, outstanding]
      exact List.mem_cons_self ..
  · exact ⟨h.ordered, h.kept, List.forall_mem_cons.mpr ⟨fun _ hne => absurd rfl hne, h.granted⟩⟩
  · exact ⟨h.ordered, h.kept, List.forall_mem_cons.mpr
      ⟨fun hsound => absurd hal (hsound.2 haddr hfd), h.granted⟩⟩

/-- A request for whole pages is for at least one. -/
theorem MmapCall.pages_pos {c : MmapCall} (h : pageSize ∣ c.length.toNat) :
    0 < c.length.toNat / pageSize :=
  Nat.div_pos (Nat.le_of_dvd c.length_pos h) pageSize_pos

/-- What a sound request gets is apart from all that was granted before. -/
theorem Issued.apart {gs : List Grant} {σ σ' : Vmm} {c : MmapCall} {p : Word}
    (h : Issued P gs σ) (hsound : c.Sound σ)
    (hr : (mmap vbe P kmalloc c.addr c.length c.fd 0 σ).result = .ok (p, σ')) :
    ∀ g ∈ gs, g.call.Sound g.before → Grant.Apart ⟨c, p, σ, σ'⟩ g := by
  intro g hg hgsound hne hgne k hk l hl
  obtain ⟨xs, hxs⟩ := h.ordered
  obtain ⟨hgaddr, hmem⟩ := h.granted g hg hgsound hgne
  have hgdvd := (hgsound.1 hgaddr).1
  rcases mmap_result hr with ⟨haddr, physical, hal, hm⟩ | ⟨-, -, rfl, -⟩ | ⟨haddr, -, -, hfd, hal⟩
  · have hdvd := (hsound.1 haddr).1
    rcases mapPages_result hxs hm with
      ⟨-, -, hroom⟩ | ⟨s, -, ys, rfl, -, -, hs, hrange, -, hmmap, -, -⟩
    · exact absurd (hsound.1 haddr).2 hroom
    · have hgrange := hxs.toLedger.heapRange hmem
      have hgs : HeapPage g.ptr.toNat := by
        simpa [Grant.span] using hgrange 0 (MmapCall.pages_pos hgdvd)
      have hs0 : s ≠ 0 := Nat.ne_of_gt (Nat.lt_of_lt_of_le (by decide) hs.ge)
      have hapart := hxs.toLedger.mmap_apart hmmap hs0 (MmapCall.pages_pos hdvd) hmem
        (MmapCall.pages_pos hgdvd)
      have hlen := Nat.div_mul_cancel hdvd
      have hglen := Nat.div_mul_cancel hgdvd
      intro heq
      have heq' := congrArg BitVec.toNat heq
      have h₁ := hs.lt_two_pow
      have h₂ := hgs.lt_two_pow
      have h₃ := hrange.size_lt
      have h₄ := hgrange.size_lt
      simp only [Grant.span, Span.stop] at *
      rw [toNat_add_ofNat, toNat_add_ofNat, hs.toNat_ofNat] at heq'
      · omega
      · omega
      · rw [hs.toNat_ofNat]
        omega
  · exact absurd rfl hne
  · exact absurd hal (hsound.2 haddr hfd)

theorem Trace.issued {B : Boot} {gs : List Grant} {σ₀ σ : Vmm}
    (h₀ : Bootstrapped B.platform B.paging σ₀) (h : Trace vbe B.platform σ₀ gs σ) :
    Issued B.platform gs σ := by
  induction h with
  | start =>
      have hlow : LowPermissions Vmm.Served := fun _ _ _ _ _ h => h
      exact ⟨ordered_of_run h₀ .refl, kept_of_run B hlow h₀ .refl, List.forall_mem_nil _⟩
  | call c p kmalloc _ result ih => exact ih.call B.platform_valid result
  | kernel _ step ih => exact ih.kernel B.platform_valid step

/-- **Every byte asked for, and no byte twice.** In every sequence of calls of `mmap` each
caller gets the bytes it asked for, and bytes of its own, exactly if each request is sound in
the state in which it is made. -/
theorem mmap_granted_iff (B : Boot) {gs : List Grant} {σ₀ σ : Vmm}
    (h₀ : Bootstrapped B.platform B.paging σ₀) (h : Trace vbe B.platform σ₀ gs σ) :
    (∀ g ∈ gs, g.Backed B.platform) ∧ gs.Pairwise Grant.Apart ↔
      ∀ g ∈ gs, g.call.Sound g.before := by
  induction h with
  | start => simp
  | kernel _ _ ih => exact ih
  | call c p kmalloc before result ih =>
      have hissued := before.issued h₀
      obtain ⟨xs, hxs⟩ := hissued.ordered
      have hone := backed_iff B.platform_valid hxs hissued.kept.frames result
      rw [List.forall_mem_cons, List.forall_mem_cons, List.pairwise_cons, hone, ← ih]
      constructor
      · rintro ⟨⟨hc, hall⟩, -, hpair⟩
        exact ⟨hc, hall, hpair⟩
      · rintro ⟨hc, hall, hpair⟩
        have hsound := ih.mp ⟨hall, hpair⟩
        exact ⟨⟨hc, hall⟩, fun g hg => hissued.apart hc result g hg (hsound g hg), hpair⟩

/-! ## On the sample image -/

/-- A request for anonymous memory. -/
def anonymous (length : Word) (h : 0 < length.toNat) : MmapCall := ⟨0, length, -1, h, .inl rfl⟩

/-- A request for anonymous memory that there is room for. -/
theorem anonymous_result (vbe : VbeInfo) (P : Platform) (kmalloc : KMalloc) {σ : Vmm}
    {xs : List (ℕ × Span)} (h : Ledger σ xs) {length : Word} {s : ℕ} {l : List Span}
    (ht : FreeList.take pageSize (length.toNat / pageSize) (blocks xs) = some (s, l)) :
    ∃ σ' ys, (mmap vbe P kmalloc 0 length (-1) 0 σ).result = .ok (BitVec.ofNat 64 s, σ') ∧
      Ledger σ' ys ∧ blocks ys = l := by
  obtain ⟨σ', ys, hr, hl, hys, -⟩ := h.mmap_some (P := P) kmalloc 0 false ht
  refine ⟨σ', ys, ?_, hl, hys⟩
  rw [mmap, if_pos ⟨rfl, rfl⟩, mapPages, hr]
  exact congrArg (fun w => Except.ok (w, σ')) (BitVec.add_zero _)

/-- The only free block of the sample. -/
def sampleBlock : Span := ⟨0x210000, maxHeapSize - 16⟩

theorem sampleBlock_take {n : ℕ} (h : n ≤ sampleBlock.size) :
    FreeList.take pageSize n [sampleBlock] = some (0x210000, FreeList.rest pageSize sampleBlock n) := by
  rw [FreeList.take, if_pos h, List.append_nil]
  rfl

/-- A request for two pages. -/
theorem mmap_granted_iff_sample : ∃ σ,
    Trace VbeInfo.sample Boot.sample.platform sampleStart
      [⟨anonymous 0x2000 (by decide), 0x210000, sampleStart, σ⟩] σ ∧
    ∀ k < 0x2000, MappedBy Boot.sample.platform sampleStart σ (0x210000 + BitVec.ofNat 64 k) := by
  obtain ⟨node, h₀⟩ := sampleStart_ledger
  have hroom : (0x2000 : Word).toNat / pageSize ≤ sampleBlock.size := by decide
  have hdvd : pageSize ∣ (0x2000 : Word).toNat := by decide
  have hne : (0x210000 : Word) ≠ -1 := by decide
  obtain ⟨σ, -, hr, -⟩ := anonymous_result VbeInfo.sample Boot.sample.platform
    (fun σ => .ok (0, σ)) h₀ (sampleBlock_take hroom)
  have ht : Trace VbeInfo.sample Boot.sample.platform sampleStart
      [⟨anonymous 0x2000 (by decide), 0x210000, sampleStart, σ⟩] σ := .call _ _ _ .start hr
  refine ⟨σ, ht, ?_⟩
  refine ((mmap_granted_iff Boot.sample sampleStart_bootstrapped ht).mpr ?_).1 _
    (List.mem_singleton_self _) hne
  intro g hg
  obtain rfl := List.mem_singleton.mp hg
  constructor
  · intro _
    exact ⟨hdvd, _, h₀.chain, sampleBlock, List.mem_singleton_self _, hroom⟩
  · intro hne
    exact absurd rfl hne

/-- Two requests for a byte each get the same address, and no page is mapped there. -/
theorem mmap_repeats : ∃ σ₁ σ₂,
    Trace VbeInfo.sample Boot.sample.platform sampleStart
      [⟨anonymous 1 (by decide), 0x210000, σ₁, σ₂⟩,
        ⟨anonymous 1 (by decide), 0x210000, sampleStart, σ₁⟩] σ₂ ∧
    ¬ Grant.Backed Boot.sample.platform ⟨anonymous 1 (by decide), 0x210000, sampleStart, σ₁⟩ ∧
    ¬ Grant.Apart ⟨anonymous 1 (by decide), 0x210000, σ₁, σ₂⟩
      ⟨anonymous 1 (by decide), 0x210000, sampleStart, σ₁⟩ := by
  obtain ⟨node, h₀⟩ := sampleStart_ledger
  have hroom : (1 : Word).toNat / pageSize ≤ sampleBlock.size := by decide
  have hdvd : ¬ pageSize ∣ (1 : Word).toNat := by decide
  have hne : (0x210000 : Word) ≠ -1 := by decide
  have hpos : 0 < (1 : Word).toNat := by decide
  obtain ⟨σ₁, xs, hr₁, h₁, hxs⟩ := anonymous_result VbeInfo.sample Boot.sample.platform
    (fun σ => .ok (0, σ)) h₀ (sampleBlock_take hroom)
  -- Nothing is cut off the block.
  have hsame : blocks xs = [sampleBlock] := hxs.trans rfl
  obtain ⟨σ₂, -, hr₂, -⟩ := anonymous_result VbeInfo.sample Boot.sample.platform
    (fun σ => .ok (0, σ)) h₁ (hsame ▸ sampleBlock_take hroom)
  refine ⟨σ₁, σ₂, .call _ _ _ (.call _ _ _ .start hr₁) hr₂, ?_, ?_⟩
  · have hstart : Trace VbeInfo.sample Boot.sample.platform sampleStart [] sampleStart := .start
    have hissued := hstart.issued sampleStart_bootstrapped
    obtain ⟨zs, hzs⟩ := hissued.ordered
    rw [backed_iff Boot.sample.platform_valid hzs hissued.kept.frames hr₁]
    intro hc
    exact hdvd (hc.1 rfl).1
  · intro hc
    exact hc hne hne 0 hpos 0 hpos rfl

end Syscalls
end BootableKernel
