import BootableKernel.Memory.History
import BootableKernel.Memory.Sections

/-!
# Isolation of the kernel

Which pages ring 3 can reach, over whole runs from the boot tables on. Directory entries
are shared and take the flags of whoever was there last, so they protect nothing; what
does is the leaf. The leaf of a page of the image is opened by the calls for its own
section only, and that of a heap page carries the flags of its most recent mapping.

For the frames the argument is one of ownership. A heap page keeps the frame it was first
given, and that is a frame drawn for this page alone unless the page was mapped to an
address. Ranges with an address are never freed, so such a page is never mapped again.
-/

namespace BootableKernel

open LinkedList

namespace Paging
variable {P : Platform}

/-! ## The tables in use -/

theorem Linked.dir {boot : Set ℕ} {σ σ' : Paging} {p : List Index} {i : Index} {k : Bool}
    (h : Linked P boot σ) (s : DirStep P σ σ' p i k) (hp : p.length < 3) : Linked P boot σ' := by
  intro q j hq hpres
  cases hold : isPresent (σ.pte P p i) with
  | true =>
      obtain ⟨hframe, -, hobt⟩ := s.kept hold
      rw [hobt]
      by_cases he : q = p ∧ j = i
      · rw [he.1, he.2, hframe]
        exact h p i (by omega) hold
      · rw [s.view q j (by omega) he] at hpres ⊢
        exact h q j hq hpres
  | false =>
      obtain ⟨f, -, -, -, hframe, -, hobt⟩ := s.created hold
      rw [hobt, tablesOf_table, List.mem_cons]
      by_cases he : q = p ∧ j = i
      · rw [he.1, he.2]
        exact .inr (.inl hframe)
      · rw [s.view q j (by omega) he] at hpres ⊢
        exact (h q j hq hpres).imp_right .inr

theorem LeafStep.tables_eq {σ σ' : Paging} {physical v : ℕ} {k : Bool}
    (s : LeafStep P σ σ' physical v k) : tablesOf σ'.obtained = tablesOf σ.obtained := by
  cases hp : isPresent (σ.leaf P v) with
  | true => rw [(s.kept hp).2.2.2]
  | false =>
      by_cases hz : physical = 0
      · rw [(s.drawn hp hz).2.2, tablesOf_page]
      · rw [(s.given hp hz).2.2]

theorem Linked.leaf {boot : Set ℕ} {σ σ' : Paging} {physical v : ℕ} {k : Bool}
    (h : Linked P boot σ) (s : LeafStep P σ σ' physical v k) : Linked P boot σ' := by
  intro q j hq hpres
  have hne : ¬ (q = tablePath v ∧ j = pageIndex v) := by
    rintro ⟨rfl, -⟩
    simp [tablePath] at hq
  rw [s.view q j (by omega) hne] at hpres ⊢
  rw [s.tables_eq]
  exact h q j hq hpres

theorem Linked.ensure {boot : Set ℕ} {σ : Paging} (hP : P.Valid) (h : Linked P boot σ)
    (hf : Frames P σ) {v n : ℕ} (hv : HeapRange v n) (physical : ℕ) (k : Bool) :
    Linked P boot (σ.ensurePagesMapped P (mapFlags k) n physical v) := by
  refine (ensurePagesMapped_rule (I := fun _ τ => Frames P τ ∧ Linked P boot τ) ⟨hf, h⟩ ?_).2
  rintro i hi τ ⟨hτ, hl⟩
  obtain ⟨σ₁, σ₂, σ₃, s₁, s₂, s₃, s₄, -⟩ :=
    vmmMapMemory_steps hP hτ.wf (physicalAt physical i) _ k (hτ.supply (hv i hi))
  refine ⟨(hτ.map hP (hv i hi) _ k).1, Linked.leaf ?_ s₄⟩
  exact ((hl.dir s₁ (by simp)).dir s₂ (by simp)).dir s₃ (by simp)

theorem Linked.permit {boot : Set ℕ} {σ σ' : Paging} {v : ℕ} {isOs w x : Bool}
    (h : Linked P boot σ) (s : PermStep P σ σ' v isOs w x) (hm : Mapped P σ v) :
    Linked P boot σ' := by
  intro q j hq hpres
  obtain ⟨hp, hframe⟩ := s.same hm (q := q) (by omega) j
  rw [hp] at hpres
  rw [hframe, s.obtained_eq]
  exact h q j hq hpres

/-- The four tables of `pagetables.asm`. -/
def bootTables (B : Boot) : Set ℕ := {a | ∃ d < 4, a = B.base + 0x1000 * d}

theorem linked_boot (B : Boot) : Linked B.platform (bootTables B) B.paging := by
  intro q i hq hpres
  left
  rw [pte_boot_link B hq] at hpres ⊢
  split at hpres
  · rename_i hz
    have h₁ := B.tables_low
    have h₂ := B.reserved_low
    have h₃ := B.base_aligned
    rw [if_pos hz, frameOf_or_flags, frameOf_ofNat (by omega) (by omega)]
    exact ⟨q.length + 1, by omega, rfl⟩
  · exact absurd hpres (by decide)

end Paging

open Paging Vmm

/-! ## The image -/

/-- What is loaded: the sections, and the state the kernel starts from. -/
structure Image where
  boot : Boot
  layout : Layout
  /-- The tables of `pagetables.asm` are part of `KERNEL_BSS`. -/
  tables : ∀ a ∈ bootTables boot, layout.InSection .kernelBss (a / pageSize)
  /-- The first free page comes after the image. -/
  past : ∀ s, layout.stop s ≤ boot.reservedStart

namespace Image
variable (I : Image)

/-- The boot constants of the memory managers. -/
def platform : Platform := I.boot.platform

/-- Frame `a` is not part of the image, nor one of the physical memory manager's. -/
def Outside (a : ℕ) : Prop :=
  (∀ s, ¬ I.layout.InSection s (a / pageSize)) ∧ ¬ PMM.InFrames I.boot.reservedStart a

/-- The requests of the kernel. Explicit addresses are page aligned, as both callers of
`vmm_mmap` make them, and every page of them lies outside; only pages that were mapped
without an address are freed; permissions are set by `vmm_set_page_permissions`. -/
def Allowed (σ : Vmm) : Request → Prop
  | .mmap physical pages _ _ => physical % pageSize = 0 ∧ ∀ i < pages,
      physicalAt physical i = 0 ∨ I.Outside (frameOf (BitVec.ofNat 64 (physicalAt physical i)))
  | .free start pages _ => ∀ v, (⟨start, pages⟩ : Span).covers pageSize v = true →
      ∃ k, lastMap σ.calls v = some (0, k)
  | .setPermission addr isOs isWritable isExecutable =>
      (addr, ⟨isOs, isWritable, isExecutable⟩) ∈ I.layout.permissionCalls

/-- The same, with explicit addresses that need not be page aligned. -/
def Loose (σ : Vmm) : Request → Prop
  | .mmap physical pages _ _ => ∀ i < pages,
      physicalAt physical i = 0 ∨ I.Outside (frameOf (BitVec.ofNat 64 (physicalAt physical i)))
  | q => I.Allowed σ q

/-- The boot tables after some calls of `set_page_permission`. -/
def permitted (cs : List (ℕ × Rights)) : Paging := cs.foldl (permit I.platform) I.boot.paging

/-- The states the kernel can be in: permissions may be set before the first call of
`vmm_mmap` sets up the blockchain, and any number of requests may follow it. -/
inductive Reachable : Vmm → Prop
  | early (cs : List (ℕ × Rights)) (hcs : ∀ c ∈ cs, c ∈ I.layout.permissionCalls) :
      Reachable (initial (I.permitted cs))
  | later (cs : List (ℕ × Rights)) (hcs : ∀ c ∈ cs, c ∈ I.layout.permissionCalls) {σ₀ σ : Vmm}
      (h₀ : Bootstrapped I.platform (I.permitted cs) σ₀) (hrun : Run I.platform I.Allowed σ₀ σ) :
      Reachable σ

/-- What holds of the tables and the record of calls in every such state. -/
structure Isolated (σ : Paging) (calls : List Call) : Prop where
  kept : Kept I.platform σ
  linked : Linked I.platform (bootTables I.boot) σ
  labelled : Labelled I.platform σ calls
  /-- Only pages of the operating system have an open leaf in the image. -/
  image : ∀ v < heapStart, isUser (σ.leaf I.platform v) = true →
    ∃ s : Section, s.isOs = true ∧ I.layout.InSection s (v / pageSize)
  heap : ∀ v l, lastMap calls v = some l → HeapPage v
  /-- A heap page has a frame of its own, unless it is mapped to an address. -/
  backed : ∀ v, HeapPage v → ∀ a, σ.translate I.platform v = some a →
    (a, v) ∈ pagesOf σ.obtained ∨ I.Outside a ∧ ∃ l, lastMap calls v = some l ∧ l.1 ≠ 0
  held : Held (fun l => l.1 ≠ 0) calls

variable {I}

theorem isolated_boot : I.Isolated I.boot.paging [] := by
  refine ⟨kept_boot _, linked_boot _, labelled_boot _, ?_, ?_, ?_, ?_⟩
  · intro v hv hu
    have hal : v / pageSize * pageSize % 4096 = 0 := Nat.mul_mod_left ..
    rw [platform, leaf_boot_low I.boot hv, isUser_ofNat hal] at hu
    exact absurd hu (by decide)
  · intro v l hl
    exact absurd hl (by simp [lastMap])
  · intro v hv a ha
    rw [Paging.translate, platform, leaf_boot I.boot hv.upper, target_zero] at ha
    exact absurd ha (by simp)
  · intro v l hl
    exact absurd hl (by simp [lastMap])

/-- Only the calls for the operating system open a page. -/
theorem section_of_permissionCall {c : ℕ × Rights} (hc : c ∈ I.layout.permissionCalls)
    (hu : c.2.user = true) :
    ∃ s : Section, s.isOs = true ∧ I.layout.InSection s (c.1 / pageSize) := by
  rcases List.mem_append.mp hc with hc | hc
  · rw [(Layout.mem_bootCalls hc).2] at hu
    exact absurd hu (by decide)
  · obtain ⟨s, -, hc⟩ := Layout.exists_of_mem_sectionCalls hc
    obtain ⟨-, hin, hr⟩ := Layout.mem_calls hc
    refine ⟨s, ?_, hin⟩
    rw [hr] at hu
    cases s <;> first | rfl | exact absurd hu (by decide)

theorem Isolated.permit {σ : Paging} {calls : List Call} (h : I.Isolated σ calls)
    {c : ℕ × Rights} (hc : c ∈ I.layout.permissionCalls) :
    I.Isolated (Paging.permit I.platform σ c) calls := by
  have hlow := Layout.permissionCalls_low hc
  obtain ⟨hk, s, hm⟩ := h.kept.permit hlow c.2.user c.2.writable c.2.executable
  have hmap : LowMap I.platform σ := ⟨h.kept.frames.wf, h.kept.identity.low⟩
  refine ⟨hk, h.linked.permit s hm, h.labelled.permit s hlow, fun v hv hu => ?_, h.heap, ?_, h.held⟩
  · have hr := congrArg Rights.user ((hmap.permit hlow).2 v hv).2
    by_cases hp : c.1 / pageSize = v / pageSize
    · rw [if_pos hp] at hr
      obtain ⟨t, ht, hin⟩ := section_of_permissionCall hc (hr.symm.trans hu)
      exact ⟨t, ht, hp ▸ hin⟩
    · rw [if_neg hp] at hr
      exact h.image v hv (hr.symm.trans hu)
  · intro v hv a ha
    rw [Paging.permit, s.translate_eq hm] at ha
    rw [Paging.permit, s.obtained_eq]
    exact h.backed v hv a ha

theorem Isolated.foldl {σ : Paging} {calls : List Call} (h : I.Isolated σ calls)
    {cs : List (ℕ × Rights)} (hcs : ∀ c ∈ cs, c ∈ I.layout.permissionCalls) :
    I.Isolated (cs.foldl (Paging.permit I.platform) σ) calls := by
  induction cs generalizing σ with
  | nil => exact h
  | cons c cs ih =>
      obtain ⟨hc, hcs⟩ := List.forall_mem_cons.mp hcs
      exact ih (h.permit hc) hcs

/-- Freeing pages that were mapped without an address. -/
theorem Isolated.freed {σ : Paging} {calls : List Call} (h : I.Isolated σ calls) {x : Span}
    (hx : ∀ v, x.covers pageSize v = true → ∃ k, lastMap calls v = some (0, k)) :
    I.Isolated σ (.freed x.start x.size :: calls) := by
  refine ⟨h.kept, h.linked, h.labelled.freed x, h.image, h.heap, h.backed, h.held.freed ?_⟩
  intro v hv l hl
  obtain ⟨k, hk⟩ := hx v hv
  rw [hl, Option.some.injEq] at hk
  simp [hk]

/-- Mapping a range that is not outstanding. -/
theorem Isolated.ensure {σ : Paging} {calls : List Call} (h : I.Isolated σ calls) {v n physical : ℕ}
    (hv : HeapRange v n) (hal : physical % pageSize = 0)
    (hout : ∀ i < n, physicalAt physical i = 0 ∨
      I.Outside (frameOf (BitVec.ofNat 64 (physicalAt physical i))))
    (hfree : ∀ w, (⟨v, n⟩ : Span).covers pageSize w = true → ¬ Covered (outstanding calls) w)
    (k : Bool) : I.Isolated (σ.ensurePagesMapped I.platform (mapFlags k) n physical v)
      (.mapped v n physical k :: calls) := by
  have hP : I.platform.Valid := I.boot.platform_valid
  have hf := h.kept.frames
  refine ⟨h.kept.ensure hP hv physical k, h.linked.ensure hP hf hv physical k,
    h.labelled.ensure hP hf hv hal k, fun w hw hu => ?_, fun w l hl => ?_, fun w hw a ha => ?_,
    h.held.mapped v n physical k⟩
  · rw [hf.ensure_other hP hv physical k] at hu
    · exact h.image w hw hu
    · intro i hi he
      have h₁ := (hv i hi).ge
      have h₂ := (hv i hi).upper.lt
      rw [leafOf_eq_iff] at he
      simp only [pageNumber, pageSize, heapStart] at *
      omega
  · rw [lastMap] at hl
    split at hl
    · rename_i hc
      obtain ⟨i, hi, rfl⟩ := (Span.covers_iff pageSize_pos).mp hc
      exact hv i hi
    · exact h.heap w l hl
  · have hsub := hf.ensure_subset hP hv physical k
    cases hc : (⟨v, n⟩ : Span).covers pageSize w with
    | false =>
        rw [Paging.translate, hf.ensure_outside hP hv physical k hw.upper hc] at ha
        rw [lastMap, if_neg (by simp [hc])]
        exact (h.backed w hw a ha).imp_left fun hd => hsub hd
    | true =>
        rw [lastMap, if_pos hc]
        obtain ⟨i, hi, rfl⟩ := (Span.covers_iff pageSize_pos).mp hc
        obtain ⟨b, hb, hor⟩ := hf.ensure_backing hP hv physical k hi
        obtain rfl : b = a := Option.some.inj (hb.symm.trans ha)
        rcases hor with hold | hdrawn | ⟨hphys, -, rfl⟩
        · -- A page with an address would be outstanding.
          rcases h.backed _ hw _ hold with hd | ⟨-, l, hl, hne⟩
          · exact .inl (hsub hd)
          · exact absurd (h.held _ l hl hne) (hfree _ hc)
        · exact .inl hdrawn
        · refine .inr ⟨(hout i hi).resolve_left hphys, _, rfl, ?_⟩
          rintro rfl
          exact hphys (physicalAt_null i)

/-! ## Runs -/

theorem Isolated.step {σ σ' : Vmm} {xs : List (ℕ × Span)} (h : I.Isolated σ.paging σ.calls)
    (hl : Ledger σ xs) (hs : Step I.platform I.Allowed σ σ') : I.Isolated σ'.paging σ'.calls := by
  obtain ⟨q, hq, hlegal, hok⟩ := hs
  -- What first fit selects is not outstanding.
  have hfree : ∀ {n s : ℕ} {l : List Span}, FreeList.take pageSize n (blocks xs) = some (s, l) →
      ∀ w, (⟨s, n⟩ : Span).covers pageSize w = true → ¬ Covered (outstanding σ.calls) w :=
    fun ht w hw => hl.not_covered (covered_of_take ht hw)
  cases q with
  | mmap physical pages isKernel supply =>
      obtain ⟨s, hs⟩ := Request.perform_mmap_iff.mp hok
      rcases hl.mmap hs with ⟨-, he, -⟩ | ⟨ys, -, htake, -, hcalls, hpaging⟩
      · rw [he]
        exact h
      · rw [hcalls, hpaging]
        exact h.ensure (hl.heapRange_take htake) hq.1 hq.2 (hfree htake) isKernel
  | free start pages supply =>
      obtain ⟨hx, hf⟩ := hlegal
      obtain ⟨ys, -, ⟨hpaging, hcalls⟩ | ⟨k, s, l, htake, hpaging, hcalls⟩⟩ :=
        hl.free (x := ⟨start, pages⟩) hf hx hok
      · rw [hcalls, hpaging]
        exact h.freed hq
      · rw [hcalls, hpaging]
        have hgrown := h.ensure (hl.heapRange_take htake) (Nat.zero_mod _)
          (fun i _ => .inl (physicalAt_null i)) (hfree htake) true
        refine hgrown.freed fun v hv => ?_
        rw [lastMap]
        split
        · exact ⟨true, rfl⟩
        · exact hq v hv
  | setPermission addr isOs isWritable isExecutable =>
      obtain rfl := Except.ok.inj hok
      have hc : (addr, (⟨isOs, isWritable, isExecutable⟩ : Rights)) ∈ I.layout.permissionCalls := hq
      have hperm := h.permit hc
      rw [Paging.permit] at hperm
      exact hperm

theorem Reachable.isolated {σ : Vmm} (h : I.Reachable σ) : I.Isolated σ.paging σ.calls := by
  cases h with
  | early cs hcs => exact isolated_boot.foldl hcs
  | later cs hcs h₀ hrun =>
      induction hrun with
      | refl =>
          obtain ⟨base, -, hr, hcalls, hpaging⟩ := bootstrapped_range h₀
          have hfirst : I.Isolated (I.permitted cs) [] := isolated_boot.foldl hcs
          rw [hcalls, hpaging]
          refine hfirst.ensure hr (Nat.zero_mod _) (fun i _ => .inl (physicalAt_null i)) ?_ true
          rintro w - ⟨b, hb, -⟩
          exact absurd hb List.not_mem_nil
      | tail hr hs ih =>
          obtain ⟨xs, hl⟩ := ledger_of_run h₀ hr
          exact ih.step hl hs

/-! ## Isolation -/

/-- The leaf decides: a page open to ring 3 belongs to the operating system or was last
mapped for user code. -/
theorem Isolated.user {σ : Paging} {calls : List Call} (h : I.Isolated σ calls) {v : ℕ}
    (hv : v < 2 ^ 48) (hal : v % pageSize = 0) (hu : σ.userAccessible I.platform v = true) :
    (∃ s : Section, s.isOs = true ∧ I.layout.InSection s (v / pageSize)) ∨
      HeapPage v ∧ ∃ p, lastMap calls v = some (p, false) := by
  obtain ⟨hpres, huser⟩ := leaf_of_userAccessible hu
  by_cases hlow : v < heapStart
  · exact .inl (h.image v hlow huser)
  · right
    by_cases hend : v < heapEnd
    · have hpage : HeapPage v := ⟨by omega, hend, hal⟩
      refine ⟨hpage, ?_⟩
      cases hl : lastMap calls v with
      | none =>
          rw [h.labelled.unmapped v hpage hl] at hpres
          exact absurd hpres (by simp)
      | some l =>
          obtain ⟨-, hlabel, -⟩ := h.labelled.mapped v hpage l hl
          rw [huser] at hlabel
          exact ⟨l.1, by rw [show false = l.2 by simpa using hlabel]⟩
    · rw [h.labelled.beyond v ⟨by omega, hv, hal⟩ (by omega)] at hpres
      exact absurd hpres (by simp)

/-- Where the frames of the tables are: in `KERNEL_BSS`, or among those of the physical
memory manager but not behind a page. -/
theorem Isolated.table {σ : Paging} {calls : List Call} (h : I.Isolated σ calls) {q : List Index}
    (hq : q.length ≤ 3) {a : ℕ} (hw : Radix.walk target σ.mem I.boot.base q = some a) :
    I.layout.InSection .kernelBss (a / pageSize) ∨
      I.boot.reservedStart ≤ a ∧ PMM.InFrames I.boot.reservedStart a ∧
        ∀ v, (a, v) ∉ pagesOf σ.obtained := by
  have hP : I.platform.Valid := I.boot.platform_valid
  rcases h.linked.walk ⟨0, by omega, by rw [Nat.mul_zero]; rfl⟩ hq hw with hb | ht
  · exact .inl (I.tables a hb)
  · right
    obtain ⟨hge, -, hin⟩ := obtained_bounds hP h.kept.frames (mem_tablesOf.mp ht)
    exact ⟨hge, hin, fun v hv => h.kept.frames.table_ne_page hP ht hv rfl⟩

/-- A page that is open to ring 3 has a frame of its own: it lies in a section of the
operating system, was drawn for this page, or lies outside everything. -/
theorem Isolated.frame {σ : Paging} {calls : List Call} (h : I.Isolated σ calls) {v : ℕ}
    (hv : v < 2 ^ 48) (hal : v % pageSize = 0) (hu : σ.userAccessible I.platform v = true) :
    ∃ a, σ.translate I.platform v = some a ∧
      ((∃ s : Section, s.isOs = true ∧ I.layout.InSection s (a / pageSize)) ∨
        (a, v) ∈ pagesOf σ.obtained ∨ I.Outside a) := by
  rcases h.user hv hal hu with ⟨s, hs, hin⟩ | ⟨hpage, p, hl⟩
  · have hstop : v < I.layout.stop s := by
      have := hin.2.2
      simp only [pageSize] at *
      omega
    have hlow := lt_of_lt_of_le hstop (I.layout.low s)
    refine ⟨_, h.kept.identity.low v hlow, .inl ⟨s, hs, ?_⟩⟩
    rwa [Nat.mul_div_cancel _ pageSize_pos]
  · obtain ⟨hpres, -, -⟩ := h.labelled.mapped v hpage _ hl
    refine ⟨_, target_of_present hpres, .inr ?_⟩
    exact (h.backed v hpage _ (target_of_present hpres)).imp_right And.left

/-- A page of the kernel that was mapped without an address has a frame drawn for it. -/
theorem Isolated.kernel_frame {σ : Paging} {calls : List Call} (h : I.Isolated σ calls) {w a : ℕ}
    {k : Bool} (hw : lastMap calls w = some (0, k)) (ha : σ.translate I.platform w = some a) :
    (a, w) ∈ pagesOf σ.obtained := by
  rcases h.backed w (h.heap w _ hw) a ha with hd | ⟨-, l, hl, hne⟩
  · exact hd
  · rw [hw, Option.some.injEq] at hl
    exact absurd (congrArg Prod.fst hl).symm hne

/-- No part of the image is a frame of the physical memory manager. -/
theorem not_inSection {a : ℕ} (h : I.boot.reservedStart ≤ a) (s : Section) :
    ¬ I.layout.InSection s (a / pageSize) := by
  intro hin
  have h₁ := hin.2.2
  have h₂ := I.past s
  have h₃ := I.boot.reserved_aligned
  simp only [pageSize] at *
  omega

/-- A frame drawn for a page lies after the image. -/
theorem Isolated.drawn {σ : Paging} {calls : List Call} (h : I.Isolated σ calls) {a v : ℕ}
    (hd : (a, v) ∈ pagesOf σ.obtained) :
    I.boot.reservedStart ≤ a ∧ PMM.InFrames I.boot.reservedStart a := by
  obtain ⟨hge, -, hin⟩ :=
    obtained_bounds I.boot.platform_valid h.kept.frames (mem_pagesOf.mp hd)
  exact ⟨hge, hin⟩

/-- Sections of the kernel and of the operating system do not meet. -/
theorem isOs_of_inSection {s t : Section} {p : ℕ} (hs : s.isOs = true)
    (hin : I.layout.InSection s p) (hin' : I.layout.InSection t p) : t.isOs = true :=
  I.layout.apart s t p hin hin' ▸ hs

/-- **Kernel isolation.** In every state the kernel can be in, a page is accessible from
ring 3 only if it belongs to a section of the operating system or the most recent
`vmm_mmap` that covered it was for user code. Such a page does not translate to a page
table, to a frame of a section of the kernel, or to a frame behind a page whose most
recent `vmm_mmap` was one for the kernel without an address. And every page that was ever
mapped by `vmm_mmap` carries the no-execute bit. -/
theorem kernel_isolated {σ : Vmm} (h : I.Reachable σ) :
    (∀ v < 2 ^ 48, v % pageSize = 0 → σ.paging.userAccessible I.platform v = true →
      ((∃ s : Section, s.isOs = true ∧ I.layout.InSection s (v / pageSize)) ∨
        ∃ p, lastMap σ.calls v = some (p, false)) ∧
      ∃ a, σ.paging.translate I.platform v = some a ∧
        (∀ q, q.length ≤ 3 → Radix.walk target σ.paging.mem I.boot.base q ≠ some a) ∧
        (∀ s : Section, s.isOs = false → ¬ I.layout.InSection s (a / pageSize)) ∧
        ∀ w, lastMap σ.calls w = some (0, true) →
          σ.paging.translate I.platform w ≠ some a) ∧
    ∀ v l, lastMap σ.calls v = some l → isNoExec (σ.paging.leaf I.platform v) = true := by
  have hi := h.isolated
  refine ⟨fun v hv hal hu => ⟨(hi.user hv hal hu).imp_right And.right, ?_⟩, fun v l hl => ?_⟩
  · obtain ⟨a, ha, hcase⟩ := hi.frame hv hal hu
    refine ⟨a, ha, fun q hq hw => ?_, fun s hs hin => ?_, fun w hw hwa => ?_⟩
    · rcases hi.table hq hw with hbss | ⟨hge, hin, hnot⟩
      · rcases hcase with ⟨s, hs, hos⟩ | hd | ho
        · exact absurd (isOs_of_inSection hs hos hbss) (by decide)
        · exact not_inSection (hi.drawn hd).1 _ hbss
        · exact ho.1 _ hbss
      · rcases hcase with ⟨s, hs, hos⟩ | hd | ho
        · exact not_inSection hge s hos
        · exact hnot v hd
        · exact ho.2 hin
    · rcases hcase with ⟨t, ht, hos⟩ | hd | ho
      · rw [isOs_of_inSection ht hos hin] at hs
        exact absurd hs (by simp)
      · exact not_inSection (hi.drawn hd).1 s hin
      · exact ho.1 s hin
    · have hdw := hi.kernel_frame hw hwa
      obtain ⟨hge, hin⟩ := hi.drawn hdw
      rcases hcase with ⟨s, hs, hos⟩ | hd | ho
      · exact not_inSection hge s hos
      · -- The two pages are one, which cannot be both open and the kernel's.
        obtain rfl : w = v := congrArg Prod.snd (List.inj_on_of_nodup_map
          hi.kept.frames.nodupFrames hdw hd rfl)
        obtain ⟨-, hlabel, -⟩ := hi.labelled.mapped w (hi.heap w _ hw) _ hw
        rw [(leaf_of_userAccessible hu).2] at hlabel
        exact absurd hlabel (by simp)
      · exact ho.2 hin
  · exact (hi.labelled.mapped v (hi.heap v l hl) l hl).2.2

/-- The small image. -/
def sample : Image where
  boot := Boot.sample
  layout := Layout.sample
  tables := by
    rintro a ⟨d, hd, rfl⟩
    refine ⟨by decide, ?_, ?_⟩
    · simp only [Layout.sample, Boot.sample, pageSize]
      omega
    · simp only [Layout.sample, Boot.sample, pageSize]
      omega
  past := by intro s; cases s <;> decide

/-- Four pages for user code after the sample's bootstrap: the pages of the bootstrap stay
closed, and the new ones cannot be executed. -/
theorem kernel_isolated_sample :
    ∃ σ, sample.Reachable σ ∧
      σ.calls = [.mapped (heapStart + 16 * pageSize) 4 0 false, .mapped heapStart 16 0 true] ∧
      σ.paging.userAccessible sample.platform heapStart = false ∧
      isNoExec (σ.paging.leaf sample.platform (heapStart + 16 * pageSize)) = true := by
  obtain ⟨σ, -, hrun, -, -, hcalls, -⟩ := sampleStart_mmap sample.Allowed 0 4 false
    ⟨rfl, fun i _ => .inl (physicalAt_null i)⟩ (by decide)
  have hreach : sample.Reachable σ := .later [] (by simp) sampleStart_bootstrapped hrun
  obtain ⟨hiso, hnx⟩ := kernel_isolated hreach
  refine ⟨σ, hreach, hcalls, ?_, hnx _ (0, false) (by rw [hcalls]; decide)⟩
  rw [Bool.eq_false_iff]
  intro hu
  rcases (hiso heapStart (by decide) (by decide) hu).1 with ⟨s, -, hin⟩ | ⟨p, hp⟩
  · exact not_inSection (by decide) s hin
  · rw [hcalls] at hp
    exact absurd hp (by simp [lastMap, Span.covers, heapStart, pageSize])

/-- The page of a frame buffer that is not page aligned lies outside the sample image. -/
theorem sample_outside : sample.Outside (frameOf (BitVec.ofNat 64 0xfd000004)) := by
  rw [show frameOf (BitVec.ofNat 64 0xfd000004) = 0xfd000000 from by decide]
  refine ⟨fun s hin => ?_, fun hin => ?_⟩
  · have hstop := hin.2.2
    have hlow := sample.layout.low s
    simp only [heapStart, pageSize] at hstop hlow
    omega
  · have := hin.2
    simp only [sample, Boot.sample, pageSize, frameCount, bitmapWords] at this
    omega

/-- Without alignment a page of the kernel may be open to ring 3. `vmm_mmap` for the kernel
puts bit 2 of the address into the leaf, where it is the user bit, and the directories are
opened by the next `vmm_mmap` for user code. -/
theorem kernel_page_open :
    Bootstrapped sample.platform (sample.permitted []) sampleStart ∧
    ∃ σ, Run sample.platform sample.Loose sampleStart σ ∧
      lastMap σ.calls (heapStart + 16 * pageSize) = some (0xfd000004, true) ∧
      (∀ s, ¬ sample.layout.InSection s ((heapStart + 16 * pageSize) / pageSize)) ∧
      σ.paging.userAccessible sample.platform (heapStart + 16 * pageSize) = true := by
  have hP := Boot.sample.platform_valid
  have hpage : HeapPage (heapStart + 16 * pageSize) := ⟨by decide, by decide, by decide⟩
  have hpage' : HeapPage (heapStart + 17 * pageSize) := ⟨by decide, by decide, by decide⟩
  refine ⟨sampleStart_bootstrapped, ?_⟩
  have hallowed : sample.Loose sampleStart (.mmap 0xfd000004 1 true (.atOnce 0)) := by
    intro i hi
    obtain rfl : i = 0 := by omega
    exact .inr sample_outside
  obtain ⟨σ₁, ys, hrun₁, hl₁, hys, hcalls₁, hp₁⟩ := sampleStart_mmap sample.Loose 0xfd000004 1 true
    hallowed (by decide)
  obtain ⟨σ₂, -, hok₂, -, -, -, hcalls₂, hp₂⟩ := hl₁.mmap_some (P := sample.platform)
    ((Supply.atOnce 0).kmalloc sample.platform) 0 false
    (show FreeList.take pageSize 1 (blocks ys) = some (heapStart + 17 * pageSize, _) by
      rw [hys]; rfl)
  have hrun₂ : Run sample.platform sample.Loose sampleStart σ₂ :=
    hrun₁.tail ⟨.mmap 0 1 false (.atOnce 0), fun i _ => .inl (physicalAt_null i), trivial,
      Request.perform_mmap_iff.mpr ⟨_, hok₂⟩⟩
  refine ⟨σ₂, hrun₂, ?_, fun s hin => ?_, ?_⟩
  · rw [hcalls₂, hcalls₁]
    decide
  · have hstop := hin.2.2
    have hlow := sample.layout.low s
    simp only [heapStart, pageSize] at hstop hlow
    omega
  · have hlow : LowPermissions sample.Loose := fun _ _ _ _ _ h => Layout.permissionCalls_low h
    have hf := (kept_of_run Boot.sample hlow sampleStart_bootstrapped .refl).frames
    have hf₁ := (kept_of_run Boot.sample hlow sampleStart_bootstrapped hrun₁).frames
    -- The leaf holds the address as it was given.
    have hleaf : opens (σ₁.paging.leaf sample.platform (heapStart + 16 * pageSize)) = true := by
      have hnone := sampleStart_unmapped
      rw [Paging.translate, target] at hnone
      have s₁ := vmmMapMemory_mapStep hP hf.wf 0xfd000004 _ true (hf.supply hpage)
      rw [hp₁]
      exact s₁.given (by simpa using hnone) (by decide) ▸ rfl
    have s := vmmMapMemory_mapStep hP hf₁.wf 0 (heapStart + 17 * pageSize) false (hf₁.supply hpage')
    rw [hp₂]
    refine (s.userAccessible_iff (leafOf_ne (by decide) (by decide) (by decide))).mpr
      ⟨fun _ => rfl, fun x hx => ?_⟩
    obtain rfl : x = leafOf (heapStart + 16 * pageSize) := by
      revert x
      decide
    exact hleaf

end Image
end BootableKernel
