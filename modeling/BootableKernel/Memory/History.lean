import BootableKernel.Memory.Allocation

/-!
# The most recent mapping of a page

Freeing leaves the leaf of a page in place, and mapping the page again keeps its frame but
rewrites its flags. So the leaf of a heap page tells for whom the page was mapped last,
whether or not it has been freed since: `Labelled` relates the leaves to the record of
calls. What can be said about the frame behind a page depends on which ranges are freed:
a page whose last mapping was of a kind that is never freed is still outstanding (`Held`).
-/

namespace BootableKernel

open LinkedList

/-- The arguments `physical` and `is_kernel` of the most recent `vmm_mmap` that covered the
page at `v`. -/
def lastMap : List Call → ℕ → Option (ℕ × Bool)
  | [], _ => none
  | .mapped start pages physical isKernel :: cs, v =>
      if (⟨start, pages⟩ : Span).covers pageSize v then some (physical, isKernel) else lastMap cs v
  | .freed _ _ :: cs, v => lastMap cs v

namespace Paging
variable {P : Platform}

/-! ## The flags of the leaves -/

theorem physicalAt_aligned {physical : ℕ} (h : physical % pageSize = 0) (i : ℕ) :
    physicalAt physical i % pageSize = 0 := by
  induction i generalizing physical with
  | zero => exact h
  | succ i ih =>
      rw [physicalAt_succ]
      apply ih
      rw [nextPhysical]
      simp only [pageSize] at *
      split <;> omega

/-- The frames the allocator hands out start on page boundaries. -/
theorem allocatePage_aligned (hP : P.Valid) (bitmap : Bitmap) :
    (PMM.allocatePage P.reservedStart bitmap).1 % 4096 = 0 := by
  have hal := hP.aligned
  rcases PMM.allocatePageFrom_spec P.reservedStart bitmap memStart with
    ⟨f, -, -, -, -, ha, -⟩ | ⟨-, he⟩
  · rw [PMM.allocatePage, ha]
    simp only [PMM.frameAddr, pageSize]
    omega
  · rw [PMM.allocatePage, he]
    exact Nat.zero_mod _

/-- The leaf of a page that was just mapped is open to ring 3 exactly if the mapping is not
for the kernel. -/
theorem Frames.map_user {σ : Paging} (hP : P.Valid) (h : Frames P σ) {v : ℕ} (hv : HeapPage v)
    {physical : ℕ} (hal : physical % pageSize = 0) (k : Bool) :
    isUser ((σ.vmmMapMemory P physical v (mapFlags k)).leaf P v) = !k := by
  obtain ⟨σ₁, σ₂, σ₃, -, -, -, s, -⟩ := vmmMapMemory_steps hP h.wf physical v k (h.supply hv)
  cases hp : isPresent (σ₃.leaf P v) with
  | true => exact (s.kept hp).2.1
  | false =>
      by_cases hz : physical = 0
      · rw [(s.drawn hp hz).1, isUser_or_noExec, isUser_ofNat (allocatePage_aligned hP _)]
      · rw [(s.given hp hz).1, isUser_or_noExec, isUser_ofNat hal]

theorem Frames.ensure_user {σ : Paging} (hP : P.Valid) (h : Frames P σ) {v n physical : ℕ}
    (hv : HeapRange v n) (hal : physical % pageSize = 0) (k : Bool) {i : ℕ} (hi : i < n) :
    isUser ((σ.ensurePagesMapped P (mapFlags k) n physical v).leaf P (v + i * pageSize)) = !k := by
  obtain ⟨τ, hτ, -, hnew, -⟩ := h.ensure_page hP hv physical k hi
  rw [hnew]
  exact hτ.map_user hP (hv i hi) (physicalAt_aligned hal i) k

/-- The leaves of the pages outside a range stay as they are. -/
theorem Frames.ensure_outside {σ : Paging} (hP : P.Valid) (h : Frames P σ) {v n : ℕ}
    (hv : HeapRange v n) (physical : ℕ) (k : Bool) {w : ℕ} (hw : UpperPage w)
    (hout : (⟨v, n⟩ : Span).covers pageSize w = false) :
    (σ.ensurePagesMapped P (mapFlags k) n physical v).leaf P w = σ.leaf P w := by
  refine h.ensure_other hP hv physical k fun i hi he => ?_
  have hwi := leafOf_injective hw.aligned (hv i hi).aligned hw.lt (hv i hi).upper.lt he
  rw [(Span.covers_iff Vmm.pageSize_pos).mpr ⟨i, hi, hwi⟩] at hout
  exact absurd hout (by simp)

/-- The leaf of every heap page carries the flags of its most recent mapping, and nothing is
mapped above the heap. -/
structure Labelled (P : Platform) (σ : Paging) (calls : List Call) : Prop where
  unmapped : ∀ v, HeapPage v → lastMap calls v = none → isPresent (σ.leaf P v) = false
  mapped : ∀ v, HeapPage v → ∀ l, lastMap calls v = some l → isPresent (σ.leaf P v) = true ∧
    isUser (σ.leaf P v) = (!l.2) ∧ isNoExec (σ.leaf P v) = true
  beyond : ∀ v, UpperPage v → heapEnd ≤ v → isPresent (σ.leaf P v) = false

theorem labelled_boot (B : Boot) : Labelled B.platform B.paging [] := by
  refine ⟨fun v hv _ => ?_, fun v _ l hl => ?_, fun v hv _ => ?_⟩
  · rw [leaf_boot B hv.upper]
    decide
  · exact absurd hl (by simp [lastMap])
  · rw [leaf_boot B hv]
    decide

theorem Labelled.freed {σ : Paging} {cs : List Call} (h : Labelled P σ cs) (x : Span) :
    Labelled P σ (.freed x.start x.size :: cs) := ⟨h.unmapped, h.mapped, h.beyond⟩

/-- Mapping a range relabels its pages and no others. -/
theorem Labelled.ensure {σ : Paging} {cs : List Call} (hP : P.Valid) (h : Labelled P σ cs)
    (hf : Frames P σ) {v n physical : ℕ} (hv : HeapRange v n) (hal : physical % pageSize = 0)
    (k : Bool) : Labelled P (σ.ensurePagesMapped P (mapFlags k) n physical v)
      (.mapped v n physical k :: cs) := by
  have hother := fun {w : ℕ} (hw : UpperPage w) => hf.ensure_outside hP hv physical k hw
  refine ⟨fun w hw hnone => ?_, fun w hw l hl => ?_, fun w hw hge => ?_⟩
  · rw [lastMap] at hnone
    split at hnone
    · exact absurd hnone (by simp)
    · rename_i hc
      rw [hother hw.upper (by simpa using hc)]
      exact h.unmapped w hw hnone
  · rw [lastMap] at hl
    split at hl
    · rename_i hc
      obtain rfl := Option.some.inj hl
      obtain ⟨i, hi, rfl⟩ := (Span.covers_iff Vmm.pageSize_pos).mp hc
      obtain ⟨hp, hx⟩ := (hf.ensure_written hP hv physical k).leaves i hi
      exact ⟨hp, hf.ensure_user hP hv hal k hi, hx⟩
    · rename_i hc
      rw [hother hw.upper (by simpa using hc)]
      exact h.mapped w hw l hl
  · rw [hother hw]
    · exact h.beyond w hw hge
    · by_contra hc
      obtain ⟨i, hi, rfl⟩ := (Span.covers_iff Vmm.pageSize_pos).mp (by simpa using hc)
      have := (hv i hi).lt
      simp only at hge
      omega

/-- `set_page_permission` of a page of the image does not touch the leaves of the heap. -/
theorem PermStep.leaf_upper {σ σ' : Paging} {addr : ℕ} {isOs w x : Bool}
    (s : PermStep P σ σ' addr isOs w x) (ha : addr < heapStart) {v : ℕ} (hv : UpperPage v) :
    σ'.leaf P v = σ.leaf P v := by
  refine s.view (leafOf v) (by simp [leafOf, tablePath]) (leafOf_not_mem_dirsOf addr v) fun he => ?_
  rw [leafOf_eq_iff] at he
  have h₁ := hv.ge
  have h₂ := hv.lt
  simp only [pageNumber, pageSize, heapStart] at *
  omega

theorem Labelled.permit {σ σ' : Paging} {cs : List Call} (h : Labelled P σ cs) {addr : ℕ}
    {isOs w x : Bool} (s : PermStep P σ σ' addr isOs w x) (ha : addr < heapStart) :
    Labelled P σ' cs := by
  refine ⟨fun v hv hn => ?_, fun v hv l hl => ?_, fun v hv hge => ?_⟩
  · rw [s.leaf_upper ha hv.upper]
    exact h.unmapped v hv hn
  · rw [s.leaf_upper ha hv.upper]
    exact h.mapped v hv l hl
  · rw [s.leaf_upper ha hv]
    exact h.beyond v hv hge

end Paging

namespace Vmm
open Paging
variable {P : Platform}

/-- A page of a free block is in no outstanding range. -/
theorem Ledger.not_covered {σ : Vmm} {xs : List (ℕ × Span)} (h : Ledger σ xs) {v : ℕ}
    (hv : Covered (blocks xs) v) : ¬ Covered (outstanding σ.calls) v := by
  rw [covered_iff_countP] at hv ⊢
  have := h.tiles v
  rw [List.countP_append] at this
  split at this <;> omega

/-- The pages that first fit selects are free. -/
theorem covered_of_take {xs l : List Span} {n s v : ℕ}
    (ht : FreeList.take pageSize n xs = some (s, l))
    (hv : (⟨s, n⟩ : Span).covers pageSize v = true) : Covered xs v := by
  have := FreeList.countP_take pageSize_pos ht v
  rw [List.countP_cons, if_pos hv] at this
  rw [covered_iff_countP]
  omega

/-- Pages whose last mapping is of a pinned kind are outstanding. -/
def Held (pinned : ℕ × Bool → Prop) (cs : List Call) : Prop :=
  ∀ v l, lastMap cs v = some l → pinned l → Covered (outstanding cs) v

theorem Held.mapped {pinned : ℕ × Bool → Prop} {cs : List Call} (h : Held pinned cs)
    (start pages physical : ℕ) (k : Bool) : Held pinned (.mapped start pages physical k :: cs) := by
  intro v l hl hp
  rw [lastMap] at hl
  split at hl
  · rename_i hc
    exact ⟨_, List.mem_cons_self .., hc⟩
  · obtain ⟨b, hb, hc⟩ := h v l hl hp
    exact ⟨b, List.mem_cons_of_mem _ hb, hc⟩

/-- Freeing a range without pinned pages keeps the others. -/
theorem Held.freed {pinned : ℕ × Bool → Prop} {cs : List Call} (h : Held pinned cs) {x : Span}
    (hx : ∀ v, x.covers pageSize v = true → ∀ l, lastMap cs v = some l → ¬ pinned l) :
    Held pinned (.freed x.start x.size :: cs) := by
  intro v l hl hp
  obtain ⟨b, hb, hc⟩ := h v l hl hp
  refine ⟨b, ?_, hc⟩
  rw [outstanding_freed]
  refine (List.mem_erase_of_ne ?_).mpr hb
  rintro rfl
  exact hx v hc l hl hp

end Vmm
end BootableKernel
