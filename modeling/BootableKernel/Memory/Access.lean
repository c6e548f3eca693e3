import BootableKernel.Memory.Boot
import BootableKernel.Memory.Supply

/-!
# What mapping one page does to the access of another

`vmm_map_memory` writes the flags of its caller into every directory entry it passes,
also into those that are there already. Other pages share these entries, and a page is
open to ring 3 only if all four of its entries are. So a mapping for the kernel closes
the pages that share a directory with it, and a mapping for user code may open some.

`userAccessible_map_iff` says exactly when a page keeps the access it had.
-/

namespace BootableKernel

namespace Paging
variable {P : Platform}

/-- The positions of the four entries of the page of `v`. -/
def entriesOf (v : ℕ) : List (List Index × Index) := dirsOf v ++ [leafOf v]

/-- The directory entries of `w` that the walk of `v` passes as well. -/
def sharedDirs (v w : ℕ) : List (List Index × Index) := (dirsOf w).filter fun x => x ∈ dirsOf v

/-- The entries of `w` that the walk of `v` does not pass. -/
def ownEntries (v w : ℕ) : List (List Index × Index) :=
  (entriesOf w).filter fun x => x ∉ dirsOf v

theorem length_le_of_mem_entriesOf {v : ℕ} {x : List Index × Index} (h : x ∈ entriesOf v) :
    x.1.length ≤ 3 := by
  rcases List.mem_append.mp h with h | h
  · have := length_le_of_mem_dirsOf h
    omega
  · rw [List.mem_singleton] at h
    simp [h, leafOf, tablePath]

/-- A page is open to ring 3 when all its entries are. -/
theorem userAccessible_iff {σ : Paging} {v : ℕ} :
    σ.userAccessible P v = true ↔ ∀ x ∈ entriesOf v, opens (σ.pte P x.1 x.2) = true := by
  simp [userAccessible, entriesOf, dirsOf, leafOf, leaf, and_assoc]

theorem leaf_of_userAccessible {σ : Paging} {v : ℕ} (h : σ.userAccessible P v = true) :
    isPresent (σ.leaf P v) = true ∧ isUser (σ.leaf P v) = true := by
  have hopen : opens (σ.leaf P v) = true :=
    userAccessible_iff.mp h (leafOf v) (List.mem_append_right _ (List.mem_singleton_self _))
  exact Bool.and_eq_true_iff.mp hopen

/-- The entries of a page are those it shares and its own. -/
theorem forall_entriesOf {v w : ℕ} {p : List Index × Index → Prop} :
    (∀ x ∈ entriesOf w, p x) ↔ (∀ x ∈ sharedDirs v w, p x) ∧ ∀ x ∈ ownEntries v w, p x := by
  simp only [sharedDirs, ownEntries, List.mem_filter, decide_eq_true_eq]
  constructor
  · intro h
    exact ⟨fun x hx => h x (List.mem_append_left _ hx.1), fun x hx => h x hx.1⟩
  · rintro ⟨hs, ho⟩ x hx
    by_cases hd : x ∈ dirsOf v
    · rcases List.mem_append.mp hx with hw | hw
      · exact hs x ⟨hw, hd⟩
      · rw [List.mem_singleton] at hw
        exact absurd hd (hw ▸ leafOf_not_mem_dirsOf v w)
    · exact ho x ⟨hx, hd⟩

theorem opens_eq_of_present {e : Entry} (h : isPresent e = true) : opens e = isUser e := by
  rw [opens, h, Bool.true_and]

/-- After a mapping, the shared entries have the caller's user bit and the others are as
before. -/
theorem MapStep.userAccessible_iff {σ σ' : Paging} {physical v : ℕ} {k : Bool}
    (s : MapStep P σ σ' physical v k) {w : ℕ} (hw : leafOf w ≠ leafOf v) :
    σ'.userAccessible P w = true ↔
      (sharedDirs v w ≠ [] → k = false) ∧
        ∀ x ∈ ownEntries v w, opens (σ.pte P x.1 x.2) = true := by
  have hshared : ∀ x ∈ sharedDirs v w, opens (σ'.pte P x.1 x.2) = !k := by
    intro x hx
    obtain ⟨hp, hu, -⟩ := s.dirs x (by simpa using (List.mem_filter.mp hx).2)
    rw [opens_eq_of_present hp, hu]
  have hown : ∀ x ∈ ownEntries v w, σ'.pte P x.1 x.2 = σ.pte P x.1 x.2 := by
    intro x hx
    obtain ⟨hmem, hnot⟩ := List.mem_filter.mp hx
    refine s.view x (length_le_of_mem_entriesOf hmem) (by simpa using hnot) fun he => ?_
    rcases List.mem_append.mp hmem with hd | hl
    · exact leafOf_not_mem_dirsOf w v (he ▸ hd)
    · rw [List.mem_singleton] at hl
      exact hw (hl.symm.trans he)
  rw [Paging.userAccessible_iff, forall_entriesOf (v := v)]
  refine and_congr ?_ (forall₂_congr fun x hx => by rw [hown x hx])
  constructor
  · intro h hne
    obtain ⟨x, l, hx⟩ := List.exists_cons_of_ne_nil hne
    have hmem : x ∈ sharedDirs v w := by rw [hx]; exact List.mem_cons_self ..
    have := h x hmem
    rw [hshared x hmem] at this
    simpa using this
  · intro h x hx
    rw [hshared x hx, h (List.ne_nil_of_mem hx)]
    rfl

/-- Different pages have different leaves. -/
theorem leafOf_ne {v w : ℕ} (hv : v < 2 ^ 48) (hw : w < 2 ^ 48)
    (h : w / pageSize ≠ v / pageSize) : leafOf w ≠ leafOf v := by
  intro he
  simp only [leafOf, tablePath, pt4Index, pt3Index, pt2Index, pageIndex, indexAt, Prod.mk.injEq,
    List.cons.injEq, Fin.mk.injEq] at he
  simp only [pageSize] at h
  omega

/-- **When a page keeps its access.** In a well-formed state, mapping `v` leaves the
access of another page `w` as it was exactly when `w` shares no directory entry with
`v`, or an entry of `w` off the walk of `v` is closed to ring 3, or the shared entries
were all open just in case the mapping is for user code. -/
theorem userAccessible_map_iff {σ : Paging} (hP : P.Valid) (h : WellFormed P σ) {v w : ℕ}
    (hv : v < 2 ^ 48) (hw : w < 2 ^ 48) (hne : w / pageSize ≠ v / pageSize)
    (hsupply : σ.lackingTables P v ≤ σ.freeFrames.card) (physical : ℕ) (k : Bool) :
    (σ.vmmMapMemory P physical v (mapFlags k)).userAccessible P w = σ.userAccessible P w ↔
      ((∀ x ∈ ownEntries v w, opens (σ.pte P x.1 x.2) = true) → sharedDirs v w ≠ [] →
        ((∀ x ∈ sharedDirs v w, opens (σ.pte P x.1 x.2) = true) ↔ k = false)) := by
  have s := vmmMapMemory_mapStep hP h physical v k hsupply
  have hempty : sharedDirs v w = [] → ∀ x ∈ sharedDirs v w, opens (σ.pte P x.1 x.2) = true := by
    intro hnil x hx
    rw [hnil] at hx
    simp at hx
  rw [Bool.eq_iff_iff, s.userAccessible_iff (leafOf_ne hv hw hne), userAccessible_iff,
    forall_entriesOf (v := v)]
  generalize (∀ x ∈ sharedDirs v w, opens (σ.pte P x.1 x.2) = true) = shared at hempty ⊢
  generalize (∀ x ∈ ownEntries v w, opens (σ.pte P x.1 x.2) = true) = own
  by_cases hnil : sharedDirs v w = []
  · simp [hnil, hempty hnil]
  · simp only [ne_eq, hnil, not_false_iff, true_implies]
    constructor
    · intro hsame ho
      exact ⟨fun hs => (hsame.mpr ⟨hs, ho⟩).1, fun hk => (hsame.mp ⟨hk, ho⟩).1⟩
    · intro hsame
      exact ⟨fun ⟨hk, ho⟩ => ⟨(hsame ho).mpr hk, ho⟩, fun ⟨hs, ho⟩ => ⟨(hsame ho).mp hs, ho⟩⟩

/-- The sample image after `set_page_permission` has opened a page at `0x18000`. -/
def sampleOs : Paging := Boot.sample.paging.setPagePermission Boot.sample.platform 0x18000
  true false true

theorem sampleOs_permStep :
    PermStep Boot.sample.platform Boot.sample.paging sampleOs 0x18000 true false true ∧
      Mapped Boot.sample.platform Boot.sample.paging 0x18000 := by
  have hm := (identity_boot Boot.sample).mapped (frames_boot Boot.sample)
    (show 0x18000 < heapStart by decide)
  exact ⟨setPagePermission_permStep Boot.sample.wellFormed hm true false true, hm⟩

theorem sampleOs_frames : Frames Boot.sample.platform sampleOs :=
  (frames_boot Boot.sample).permit sampleOs_permStep.1 sampleOs_permStep.2

theorem heapPage_heapStart : HeapPage heapStart := ⟨le_refl _, by decide, by decide⟩

/-- `set_page_permission` for the operating system opens its page. -/
theorem PermStep.userAccessible {σ σ' : Paging} {v : ℕ} {w x : Bool}
    (s : PermStep P σ σ' v true w x) : σ'.userAccessible P v = true := by
  rw [userAccessible_iff]
  intro y hy
  rcases List.mem_append.mp hy with hy | hy
  · rw [s.dirs y hy, opens_eq_of_present (isPresent_setFlags ..), isUser_setFlags]
  · rw [List.mem_singleton] at hy
    subst hy
    rw [show σ'.pte P (leafOf v).1 (leafOf v).2 = _ from s.leaf,
      opens_eq_of_present (isPresent_leafFlags ..), isUser_leafFlags]

/-- The first kernel page of the heap closes a page of the operating system: both lie
under the first entries of the two upper tables. -/
theorem userAccessible_map_fails :
    WellFormed Boot.sample.platform sampleOs ∧
    sampleOs.lackingTables Boot.sample.platform heapStart ≤ sampleOs.freeFrames.card ∧
    sampleOs.userAccessible Boot.sample.platform 0x18000 = true ∧
    (sampleOs.vmmMapMemory Boot.sample.platform 0 heapStart directoryDefaults).userAccessible
      Boot.sample.platform 0x18000 = false := by
  have hsupply := sampleOs_frames.supply heapPage_heapStart
  refine ⟨sampleOs_frames.wf, hsupply, sampleOs_permStep.1.userAccessible, ?_⟩
  have s := vmmMapMemory_mapStep Boot.sample.platform_valid sampleOs_frames.wf 0 heapStart true
    hsupply
  have hacc := s.userAccessible_iff (w := 0x18000) (leafOf_ne (by decide) (by decide) (by decide))
  rw [Bool.eq_false_iff]
  intro hc
  have := (hacc.mp hc).1 (by decide)
  exact absurd this (by decide)

/-- A second user page under the same directories keeps its access: here `0x18000` when
a page is mapped for user code. -/
theorem userAccessible_map_sample :
    (sampleOs.vmmMapMemory Boot.sample.platform 0 heapStart (mapFlags false)).userAccessible
      Boot.sample.platform 0x18000 = sampleOs.userAccessible Boot.sample.platform 0x18000 := by
  refine (userAccessible_map_iff Boot.sample.platform_valid sampleOs_frames.wf (by decide)
    (by decide) (by decide) (sampleOs_frames.supply heapPage_heapStart) 0 false).mpr ?_
  intro _ _
  refine iff_of_true (fun x hx => ?_) rfl
  have hacc := sampleOs_permStep.1.userAccessible
  rw [userAccessible_iff] at hacc
  exact hacc x (List.mem_append_left _ (List.mem_filter.mp hx).1)

end Paging
end BootableKernel
