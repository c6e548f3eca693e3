import BootableKernel.Memory.Isolation

/-!
# The contents of frames

The memory manager reads and writes page tables only. So what frames without a table
contain does not matter to it (`SameTables`), and mapping pages does not change it
(`Frames.ensure_mem`); the one thing that clears a frame is making a table of it.

`Live` is the reachability of `Memory.Isolation` with arbitrary contents of these frames at
any time, whoever wrote them, and with releases of the kernel's own pages only: no page
that was mapped for user code is freed.
-/

namespace BootableKernel

open LinkedList

namespace Paging
variable {P : Platform}

/-! ## Frames without a table -/

/-- The same state with other memory. -/
def withMem (σ : Paging) (mem : ℕ → Index → Entry) : Paging := { σ with mem := mem }

/-- The page tables of `σ` are unchanged in `mem`. -/
def SameTables (P : Platform) (σ : Paging) (mem : ℕ → Index → Entry) : Prop :=
  ∀ q, q.length ≤ 3 → ∀ t, Radix.walk target σ.mem P.pt4 q = some t → mem t = σ.mem t

section SameTables
variable {σ : Paging} {mem : ℕ → Index → Entry}

theorem SameTables.walk_eq (h : SameTables P σ mem) {q : List Index} (hq : q.length ≤ 3) :
    Radix.walk target (σ.withMem mem).mem P.pt4 q = Radix.walk target σ.mem P.pt4 q :=
  Radix.walk_agree (fun p hp => h p (Nat.le_of_lt hp)) hq

theorem SameTables.pte_eq (h : SameTables P σ mem) {q : List Index} (hq : q.length ≤ 3)
    (i : Index) : (σ.withMem mem).pte P q i = σ.pte P q i :=
  Radix.view_agree h hq i

theorem SameTables.leaf_eq (h : SameTables P σ mem) (v : ℕ) :
    (σ.withMem mem).leaf P v = σ.leaf P v := h.pte_eq (by simp [tablePath]) _

theorem SameTables.translate_eq (h : SameTables P σ mem) (v : ℕ) :
    (σ.withMem mem).translate P v = σ.translate P v := by
  rw [translate, translate, h.leaf_eq]

theorem SameTables.userAccessible_eq (h : SameTables P σ mem) (v : ℕ) :
    (σ.withMem mem).userAccessible P v = σ.userAccessible P v := by
  rw [userAccessible, userAccessible, h.leaf_eq, h.pte_eq (by simp), h.pte_eq (by simp),
    h.pte_eq (by simp)]

theorem SameTables.unreached_iff (h : SameTables P σ mem) {f : ℕ} :
    Radix.Unreached target (σ.withMem mem).mem P.pt4 3 f ↔
      Radix.Unreached target σ.mem P.pt4 3 f := by
  constructor
  · intro hf q hq
    rw [← h.walk_eq hq]
    exact hf q hq
  · intro hf q hq
    rw [h.walk_eq hq]
    exact hf q hq

theorem SameTables.wellFormed (h : SameTables P σ mem) (hwf : WellFormed P σ) :
    WellFormed P (σ.withMem mem) := by
  constructor
  · intro p q t hp hq
    rw [h.walk_eq hp, h.walk_eq hq]
    exact hwf.tree p q t hp hq
  · intro f hf hfree
    exact h.unreached_iff.mpr (hwf.fresh f hf hfree)

theorem SameTables.frames (h : SameTables P σ mem) (hf : Frames P σ) :
    Frames P (σ.withMem mem) := by
  refine hf.congr (h.wellFormed hf.wf) rfl rfl (fun q j hq => ?_) fun v hv => ?_
  · rw [h.pte_eq (by omega)]
    exact ⟨rfl, fun _ => rfl⟩
  · rw [h.leaf_eq]
    exact hv

theorem SameTables.kept (h : SameTables P σ mem) (hk : Vmm.Kept P σ) :
    Vmm.Kept P (σ.withMem mem) := by
  refine ⟨h.frames hk.frames, ?_, fun v hv => ?_⟩
  · rw [h.pte_eq (by simp)]
    exact hk.identity.p2
  · rw [h.translate_eq]
    exact hk.identity.low v hv

theorem SameTables.linked (h : SameTables P σ mem) {boot : Set ℕ} (hl : Linked P boot σ) :
    Linked P boot (σ.withMem mem) := by
  intro q i hq
  rw [h.pte_eq (by omega)]
  exact hl q i hq

theorem SameTables.labelled (h : SameTables P σ mem) {calls : List Call}
    (hl : Labelled P σ calls) : Labelled P (σ.withMem mem) calls := by
  constructor
  · intro v hv
    rw [h.leaf_eq]
    exact hl.unmapped v hv
  · intro v hv
    rw [h.leaf_eq]
    exact hl.mapped v hv
  · intro v hv
    rw [h.leaf_eq]
    exact hl.beyond v hv

end SameTables

/-! ## What mapping leaves alone -/

theorem LeafStep.walk_eq {σ σ' : Paging} {physical v : ℕ} {k : Bool}
    (s : LeafStep P σ σ' physical v k) {q : List Index} (hq : q.length ≤ 3) :
    Radix.walk target σ'.mem P.pt4 q = Radix.walk target σ.mem P.pt4 q := by
  rcases List.eq_nil_or_concat q with rfl | ⟨p, i, rfl⟩
  · rfl
  · rw [List.concat_eq_append] at hq ⊢
    rw [List.length_append, List.length_singleton] at hq
    rw [walk_snoc, walk_snoc, s.view p i (by omega)]
    rintro ⟨rfl, -⟩
    simp [tablePath] at hq

/-- The data frames, which come after the frames for tables, never hold a table. -/
theorem Frames.unreached {σ : Paging} (h : Frames P σ) (hroot : P.pt4 < P.reservedStart) {f : ℕ}
    (hf : frame P 63 ≤ f) : Radix.Unreached target σ.mem P.pt4 3 f := by
  intro q hq hw
  rcases h.walk hroot hq hw with hlt | ht
  · have : P.reservedStart ≤ frame P 63 := Nat.le_add_right ..
    omega
  · obtain ⟨g, hg, rfl⟩ := h.table_lt ht
    simp only [frame, PMM.frameAddr, pageSize] at hf
    omega

/-- A frame that was drawn for a page is a data frame. -/
theorem Frames.data_of_page {σ : Paging} (hP : P.Valid) (h : Frames P σ) {a v : ℕ}
    (ha : (a, v) ∈ pagesOf σ.obtained) : frame P 63 ≤ a := by
  obtain ⟨-, -, k, -, he⟩ := h.pages _ ha
  obtain ⟨h64, -, -⟩ := firstData_bounds hP
  simp only [frame, PMM.frameAddr, pageSize] at he ⊢
  omega

/-- Mapping pages does not clear or change the frames behind them. -/
theorem Frames.ensure_mem {σ : Paging} (hP : P.Valid) (h : Frames P σ)
    (hroot : P.pt4 < P.reservedStart) {v n : ℕ} (hv : HeapRange v n) (physical : ℕ) (k : Bool)
    {f : ℕ} (hf : frame P 63 ≤ f) :
    (σ.ensurePagesMapped P (mapFlags k) n physical v).mem f = σ.mem f := by
  refine (ensurePagesMapped_rule (I := fun _ τ => Frames P τ ∧ τ.mem f = σ.mem f) ⟨h, rfl⟩ ?_).2
  rintro i hi τ ⟨hτ, hsame⟩
  obtain ⟨σ₁, σ₂, σ₃, -, -, -, s, hmem⟩ :=
    vmmMapMemory_steps hP hτ.wf (physicalAt physical i) _ k (hτ.supply (hv i hi))
  have hnext := (hτ.map hP (hv i hi) (physicalAt physical i) k).1
  refine ⟨hnext, (hmem f fun q hq => ?_).trans hsame⟩
  rw [← s.walk_eq hq]
  exact hnext.unreached hroot hf q hq

/-! ## Hidden frames -/

/-- The frame holds no table, and no page that is open to ring 3 translates to it. -/
def Hidden (P : Platform) (σ : Paging) (f : ℕ) : Prop :=
  Radix.Unreached target σ.mem P.pt4 3 f ∧
    ∀ v < 2 ^ 48, v % pageSize = 0 → σ.userAccessible P v = true → σ.translate P v ≠ some f

/-- Other memory, which differs in hidden frames at most. -/
def Alike (P : Platform) (σ : Paging) (mem : ℕ → Index → Entry) : Prop :=
  ∀ f, ¬ Hidden P σ f → mem f = σ.mem f

theorem Alike.sameTables {σ : Paging} {mem : ℕ → Index → Entry} (h : Alike P σ mem) :
    SameTables P σ mem := by
  intro q hq t ht
  apply h
  intro hc
  exact hc.1 q hq ht

theorem SameTables.hidden_iff {σ : Paging} {mem : ℕ → Index → Entry} (h : SameTables P σ mem)
    {f : ℕ} : Hidden P (σ.withMem mem) f ↔ Hidden P σ f := by
  simp only [Hidden, h.unreached_iff, h.userAccessible_eq, h.translate_eq]

end Paging

open Paging Vmm

/-- The same state with other memory. -/
def Vmm.withMem (σ : Vmm) (mem : ℕ → Index → Entry) : Vmm :=
  { σ with paging := σ.paging.withMem mem }

theorem Vmm.Ledger.withMem {σ : Vmm} {xs : List (ℕ × Span)} (h : Ledger σ xs)
    (mem : ℕ → Index → Entry) : Ledger (σ.withMem mem) xs := ⟨h.chain, h.tiles, h.inHeap, h.booted⟩

theorem Vmm.Ordered.withMem {σ : Vmm} {xs : List (ℕ × Span)} (h : Ordered σ xs)
    (mem : ℕ → Index → Entry) : Ordered (σ.withMem mem) xs :=
  ⟨h.toLedger.withMem mem, h.coalesced⟩

namespace Image
variable {I : Image}

/-! ## Live states -/

/-- The requests of the kernel, which frees its own pages only: the one caller of
`vmm_free_pages` is `liballoc_free`, for pages of `liballoc_alloc`. -/
def Private (I : Image) (σ : Vmm) : Request → Prop
  | .free start pages _ => 1 ≤ pages ∧ ∀ v, (⟨start, pages⟩ : Span).covers pageSize v = true →
      lastMap σ.calls v = some (0, true)
  | q => I.Allowed σ q

/-- The states after the bootstrap: the kernel makes requests, and memory other than the
page tables may come to contain anything at any time. -/
inductive Live (I : Image) : Vmm → Prop
  | boot (cs : List (ℕ × Rights)) (hcs : ∀ c ∈ cs, c ∈ I.layout.permissionCalls) {σ₀ : Vmm}
      (h₀ : Bootstrapped I.platform (I.permitted cs) σ₀) : Live I σ₀
  | request {σ σ' : Vmm} (h : Live I σ) (hs : Step I.platform I.Private σ σ') : Live I σ'
  | contents {σ : Vmm} (h : Live I σ) {mem : ℕ → Index → Entry}
      (hm : SameTables I.platform σ.paging mem) : Live I (σ.withMem mem)

theorem Private.allowed {σ : Vmm} {q : Request} (h : I.Private σ q) : I.Allowed σ q := by
  cases q with
  | free start pages supply => exact fun v hv => ⟨true, h.2 v hv⟩
  | mmap physical pages isKernel supply => exact h
  | setPermission addr isOs isWritable isExecutable => exact h

theorem Private.served {σ : Vmm} {q : Request} (h : I.Private σ q) : Served σ q := by
  cases q with
  | free start pages supply => exact h.1
  | mmap physical pages isKernel supply => trivial
  | setPermission addr isOs isWritable isExecutable => exact Layout.permissionCalls_low h

theorem Isolated.withMem {σ : Paging} {calls : List Call} (h : I.Isolated σ calls)
    {mem : ℕ → Index → Entry} (hm : SameTables I.platform σ mem) :
    I.Isolated (σ.withMem mem) calls := by
  refine ⟨hm.kept h.kept, hm.linked h.linked, hm.labelled h.labelled, ?_, h.heap, ?_, h.held⟩
  · intro v hv
    rw [hm.leaf_eq]
    exact h.image v hv
  · intro v hv a
    rw [hm.translate_eq]
    exact h.backed v hv a

/-- Pages that were mapped for user code stay outstanding. -/
theorem held_request {σ σ' : Vmm} (e : Effect I.platform I.Private σ σ')
    (h : Held (fun l => l.2 = false) σ.calls) : Held (fun l => l.2 = false) σ'.calls := by
  cases e with
  | refused _ hc => exact hc ▸ h
  | mapped physical pages start isKernel _ _ _ _ hc => exact hc ▸ h.mapped start pages physical isKernel
  | freed x _ ha _ _ hc =>
      rw [hc]
      apply h.freed
      intro v hv l hl hu
      rw [ha.2 v hv] at hl
      exact absurd hu (by simp [← Option.some.inj hl])
  | freedGrown x _ k start ha _ _ _ hc =>
      rw [hc]
      apply (h.mapped start k 0 true).freed
      intro v hv l hl hu
      rw [lastMap] at hl
      split at hl
      · exact absurd hu (by simp [← Option.some.inj hl])
      · rw [ha.2 v hv] at hl
        exact absurd hu (by simp [← Option.some.inj hl])
  | permitted _ _ _ _ _ _ hc => exact hc ▸ h

/-- What holds in every live state. -/
structure Steady (I : Image) (σ : Vmm) : Prop where
  ordered : ∃ xs, Ordered σ xs
  isolated : I.Isolated σ.paging σ.calls
  held : Held (fun l => l.2 = false) σ.calls

theorem Steady.withMem {σ : Vmm} (h : I.Steady σ) {mem : ℕ → Index → Entry}
    (hm : SameTables I.platform σ.paging mem) : I.Steady (σ.withMem mem) := by
  obtain ⟨xs, hxs⟩ := h.ordered
  exact ⟨⟨xs, hxs.withMem mem⟩, h.isolated.withMem hm, h.held⟩

theorem Live.steady {σ : Vmm} (h : I.Live σ) : I.Steady σ := by
  induction h with
  | boot cs hcs h₀ =>
      refine ⟨ordered_of_run h₀ .refl, (Reachable.later cs hcs h₀ .refl).isolated, ?_⟩
      obtain ⟨base, -, -, hcalls, -⟩ := bootstrapped_range h₀
      rw [hcalls]
      apply Held.mapped
      intro v l hl
      exact absurd hl (by simp [lastMap])
  | request _ hs ih =>
      obtain ⟨xs, hxs⟩ := ih.ordered
      refine ⟨hxs.step (hs.mono fun _ _ => Private.served), ?_, ?_⟩
      · exact ih.isolated.step hxs.toLedger (hs.mono fun _ _ => Private.allowed)
      · exact held_request (hxs.toLedger.effect hs) ih.held
  | contents _ hm ih => exact ih.withMem hm

/-! ## The frames behind free pages -/

/-- A free page is not open to ring 3. -/
theorem Steady.closed {σ : Vmm} (h : I.Steady σ) {xs : List (ℕ × Span)} (hl : Ledger σ xs) {v : ℕ}
    (hv : HeapPage v) (hfree : Covered (blocks xs) v) :
    σ.paging.userAccessible I.platform v = false := by
  rw [Bool.eq_false_iff]
  intro hu
  rcases h.isolated.user hv.upper.lt hv.aligned hu with ⟨s, -, hin⟩ | ⟨-, p, hl'⟩
  · have h₁ := hin.2.2
    have h₂ := I.layout.low s
    have h₃ := hv.ge
    have h₄ := hv.aligned
    simp only [pageSize] at *
    omega
  · exact hl.not_covered hfree (h.held v _ hl' rfl)

/-- The frame that a fresh page for user code gets was hidden before, and it is handed over
as it is. -/
theorem Steady.backing {σ : Vmm} (h : I.Steady σ) {xs : List (ℕ × Span)} (hl : Ledger σ xs)
    {n s : ℕ} {l : List Span} (ht : FreeList.take pageSize n (blocks xs) = some (s, l)) {v : ℕ}
    (hv : (⟨s, n⟩ : Span).covers pageSize v = true) :
    ∃ f, (σ.paging.ensurePagesMapped I.platform (mapFlags false) n 0 s).translate I.platform v =
        some f ∧ Hidden I.platform σ.paging f ∧
      (σ.paging.ensurePagesMapped I.platform (mapFlags false) n 0 s).mem f = σ.paging.mem f := by
  have hP : I.platform.Valid := I.boot.platform_valid
  have hroot : I.platform.pt4 < I.platform.reservedStart := by
    have := I.boot.tables_low
    simp only [platform, Boot.platform]
    omega
  have hf := h.isolated.kept.frames
  have hrange := hl.heapRange_take ht
  have hfree : ∀ w, (⟨s, n⟩ : Span).covers pageSize w = true → Covered (blocks xs) w :=
    fun w hw => covered_of_take ht hw
  have hafter := h.isolated.ensure hrange (Nat.zero_mod _) (fun i _ => .inl (physicalAt_null i))
    (fun w hw => hl.not_covered (hfree w hw)) false
  have hlast : lastMap (.mapped s n 0 false :: σ.calls) v = some (0, false) := by
    rw [lastMap, if_pos hv]
  have hpage := hafter.heap v _ hlast
  obtain ⟨hpres, -, -⟩ := hafter.labelled.mapped v hpage _ hlast
  have hframe := target_of_present hpres
  have hdrawn := hafter.kernel_frame hlast hframe
  have hdata := hafter.kept.frames.data_of_page hP hdrawn
  refine ⟨_, hframe, ⟨hf.unreached hroot hdata, ?_⟩, hf.ensure_mem hP hroot hrange 0 false hdata⟩
  intro w hw hal hu hwf
  obtain ⟨hge, hin⟩ := hafter.drawn hdrawn
  obtain ⟨a, ha, hcase⟩ := h.isolated.frame hw hal hu
  obtain rfl := Option.some.inj (ha.symm.trans hwf)
  rcases hcase with ⟨t, -, hos⟩ | hd | ho
  · exact not_inSection hge t hos
  · -- The frame was drawn for one page only.
    obtain rfl : w = v := congrArg Prod.snd (List.inj_on_of_nodup_map
      hafter.kept.frames.nodupFrames (hf.ensure_subset hP hrange 0 false hd) hdrawn rfl)
    rw [h.closed hl hpage (hfree w hv)] at hu
    exact absurd hu (by simp)
  · exact ho.2 hin

end Image
end BootableKernel
