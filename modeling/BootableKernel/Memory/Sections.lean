import BootableKernel.Memory.Rights

/-!
# The sections of the image

`linker.ld` lays the image out in nine sections below 2 MB, and `vmm_set_page_permissions`
gives the pages of each the rights of their section, one `set_page_permission` at a time.
Each of these calls also writes the three directory entries above its page, which all
pages of the image share. What counts for a page is therefore the last call for it and
the last call of all.
-/

namespace BootableKernel

open Paging

/-- The sections of `linker.ld`. -/
inductive Section
  | boot
  | kernelText
  | kernelRodata
  | kernelData
  | kernelBss
  | osText
  | osRodata
  | osData
  | osBss
  deriving DecidableEq, Repr

namespace Section

/-- The `OS_*` sections. -/
def isOs : Section → Bool
  | boot | kernelText | kernelRodata | kernelData | kernelBss => false
  | osText | osRodata | osData | osBss => true

/-- What the pages of a section may be used for. -/
def rights : Section → Rights
  | boot => ⟨false, true, true⟩
  | kernelText => ⟨false, false, true⟩
  | kernelRodata => ⟨false, false, false⟩
  | kernelData => ⟨false, true, false⟩
  | kernelBss => ⟨false, true, false⟩
  | osText => ⟨true, false, true⟩
  | osRodata => ⟨true, false, false⟩
  | osData => ⟨true, true, false⟩
  | osBss => ⟨true, true, false⟩

end Section

/-- Page `p` holds a byte of the addresses from `start` to `stop`. -/
def Occupies (start stop p : ℕ) : Prop :=
  start < stop ∧ start < (p + 1) * pageSize ∧ p * pageSize < stop

/-- An image as `linker.ld` lays it out: `_X_START_` and `_X_END_` of each section. -/
structure Layout where
  start : Section → ℕ
  stop : Section → ℕ
  le : ∀ s, start s ≤ stop s
  low : ∀ s, stop s ≤ heapStart
  aligned : ∀ s, s ≠ .boot → start s % pageSize = 0
  /-- No two sections share a page. -/
  apart : ∀ s t p, Occupies (start s) (stop s) p → Occupies (start t) (stop t) p → s = t
  /-- The boot sector comes first. -/
  bootFirst : ∀ s, s ≠ .boot → start s < stop s → stop .boot ≤ start s
  /-- There is something to run in ring 3. -/
  os : ∃ s : Section, s.isOs = true ∧ start s < stop s

/-- Page `p` belongs to section `s`. -/
def Layout.InSection (L : Layout) (s : Section) (p : ℕ) : Prop :=
  Occupies (L.start s) (L.stop s) p

namespace Paging
variable (P : Platform)

/-- The loop of `SET_PERMISSIONS`: what the pointer and the tables are when it ends. -/
def setPermissions (isOs isWritable isExecutable : Bool) (stop start : ℕ) (σ : Paging) :
    ℕ × Paging :=
  if start < stop then
    setPermissions isOs isWritable isExecutable stop (start + pageSize)
      (σ.setPagePermission P start isOs isWritable isExecutable)
  else (start, σ)
termination_by stop - start
decreasing_by simp only [pageSize]; omega

/-- `vmm_set_page_permissions`. -/
def vmmSetPagePermissions (L : Layout) (σ : Paging) : Paging :=
  let boot := σ.setPermissions P false true true (L.stop .boot) (L.start .boot)
  -- Whatever resides below the boot sector.
  let σ := (boot.2.setPermissions P false true true boot.1 0).2
  let σ := (σ.setPermissions P false false true (L.stop .kernelText) (L.start .kernelText)).2
  let σ := (σ.setPermissions P false false false (L.stop .kernelRodata) (L.start .kernelRodata)).2
  let σ := (σ.setPermissions P false true false (L.stop .kernelData) (L.start .kernelData)).2
  let σ := (σ.setPermissions P false true false (L.stop .kernelBss) (L.start .kernelBss)).2
  let σ := (σ.setPermissions P true false true (L.stop .osText) (L.start .osText)).2
  let σ := (σ.setPermissions P true false false (L.stop .osRodata) (L.start .osRodata)).2
  let σ := (σ.setPermissions P true true false (L.stop .osData) (L.start .osData)).2
  (σ.setPermissions P true true false (L.stop .osBss) (L.start .osBss)).2

/-! ## The calls, one after the other -/

/-- `set_page_permission` with the rights as one argument. -/
def permit (σ : Paging) (c : ℕ × Rights) : Paging :=
  σ.setPagePermission P c.1 c.2.user c.2.writable c.2.executable

/-- How often the loop runs. -/
def rounds (start stop : ℕ) : ℕ := (stop - start + (pageSize - 1)) / pageSize

/-- The addresses the loop visits. -/
def visited (start stop : ℕ) : List ℕ :=
  (List.range (rounds start stop)).map fun i => start + i * pageSize

variable {P}

theorem mem_visited {start stop a : ℕ} :
    a ∈ visited start stop ↔ a < stop ∧ ∃ i, a = start + i * pageSize := by
  simp only [visited, rounds, List.mem_map, List.mem_range, pageSize]
  constructor
  · rintro ⟨i, hi, rfl⟩
    exact ⟨by omega, i, rfl⟩
  · rintro ⟨hlt, i, rfl⟩
    exact ⟨i, by omega, rfl⟩

theorem rounds_succ {start stop : ℕ} (h : start < stop) :
    rounds start stop = rounds (start + pageSize) stop + 1 := by
  simp only [rounds, pageSize]
  omega

theorem rounds_zero {start stop : ℕ} (h : stop ≤ start) : rounds start stop = 0 := by
  simp only [rounds, pageSize]
  omega

theorem visited_cons {start stop : ℕ} (h : start < stop) :
    visited start stop = start :: visited (start + pageSize) stop := by
  rw [visited, visited, rounds_succ h, List.range_succ_eq_map, List.map_cons, List.map_map]
  refine List.cons_eq_cons.mpr ⟨by simp, List.map_congr_left fun i _ => ?_⟩
  simp only [Function.comp_apply, pageSize]
  omega

theorem visited_nil {start stop : ℕ} (h : stop ≤ start) : visited start stop = [] := by
  rw [visited, rounds_zero h]
  rfl

/-- The loop makes one call for each address it visits. -/
theorem setPermissions_eq (r : Rights) (stop start : ℕ) (σ : Paging) :
    (σ.setPermissions P r.user r.writable r.executable stop start).2 =
      ((visited start stop).map fun a => (a, r)).foldl (permit P) σ := by
  fun_induction setPermissions P r.user r.writable r.executable stop start σ with
  | case1 start σ h ih =>
      rw [ih, visited_cons h, List.map_cons, List.foldl_cons, permit]
  | case2 start σ h =>
      rw [visited_nil (by omega), List.map_nil, List.foldl_nil]

/-- Where the pointer ends. -/
@[simp] theorem setPermissions_fst (r : Rights) (stop start : ℕ) (σ : Paging) :
    (σ.setPermissions P r.user r.writable r.executable stop start).1 =
      start + rounds start stop * pageSize := by
  fun_induction setPermissions P r.user r.writable r.executable stop start σ with
  | case1 start σ h ih =>
      rw [ih, rounds_succ h, Nat.add_mul, Nat.one_mul]
      omega
  | case2 start σ h => rw [rounds_zero (by omega), Nat.zero_mul, Nat.add_zero]

/-! ## The rights that result -/

/-- The first 2 MB are mapped to themselves, by tables that form a tree. -/
structure LowMap (P : Platform) (σ : Paging) : Prop where
  wf : WellFormed P σ
  low : ∀ v < heapStart, σ.translate P v = some (v / pageSize * pageSize)

/-- All pages of the first 2 MB lie under the same directory entries. -/
theorem dirsOf_low {v w : ℕ} (hv : v < heapStart) (hw : w < heapStart) : dirsOf v = dirsOf w := by
  obtain ⟨v4, v3, v2⟩ := indices_low hv
  obtain ⟨w4, w3, w2⟩ := indices_low hw
  simp only [dirsOf, v4, v3, v2, w4, w3, w2]

theorem leafOf_low {v w : ℕ} (hv : v < heapStart) (hw : w < heapStart) :
    leafOf v = leafOf w ↔ v / pageSize = w / pageSize := by
  rw [leafOf_eq_iff]
  simp only [pageNumber, pageSize, heapStart] at *
  omega

/-- One call: the directories and the page have its rights, the other pages keep theirs. -/
theorem LowMap.permit {σ : Paging} (h : LowMap P σ) {c : ℕ × Rights} (hc : c.1 < heapStart) :
    LowMap P (permit P σ c) ∧ ∀ v < heapStart,
      (permit P σ c).grants P (dirsOf v) = ⟨c.2.user, true, true⟩ ∧
      entryRights ((permit P σ c).leaf P v) =
        if c.1 / pageSize = v / pageSize then c.2 else entryRights (σ.leaf P v) := by
  have hm := mapped_of_translate (h.low c.1 hc)
  have s := setPagePermission_permStep h.wf hm c.2.user c.2.writable c.2.executable
  refine ⟨⟨s.wf, fun v hv => (s.translate_eq hm v).trans (h.low v hv)⟩, fun v hv => ⟨?_, ?_⟩⟩
  · rw [dirsOf_low hv hc]
    exact s.grants_dirs
  · by_cases hp : c.1 / pageSize = v / pageSize
    · have hleaf := s.leaf
      rw [if_pos hp, leaf_congr P _ ((leafOf_low hv hc).mpr hp.symm), Paging.permit, hleaf,
        entryRights_leafFlags]
    · have hl : leafOf v ≠ leafOf c.1 := fun he => hp ((leafOf_low hv hc).mp he).symm
      rw [if_neg hp, Paging.leaf, Paging.permit]
      exact congrArg entryRights
        (s.view (leafOf v) (by simp [leafOf, tablePath]) (leafOf_not_mem_dirsOf c.1 v) hl)

theorem LowMap.foldl {σ : Paging} (h : LowMap P σ) {cs : List (ℕ × Rights)}
    (hcs : ∀ c ∈ cs, c.1 < heapStart) : LowMap P (cs.foldl (Paging.permit P) σ) := by
  induction cs generalizing σ with
  | nil => exact h
  | cons c cs ih =>
      obtain ⟨hc, hcs⟩ := List.forall_mem_cons.mp hcs
      exact ih (h.permit hc).1 hcs

/-- If all calls for a page ask for the rights `q`, and there is one or the page has them
already, then it has them in the end. -/
theorem LowMap.entryRights_foldl {σ : Paging} (h : LowMap P σ) {cs : List (ℕ × Rights)}
    (hcs : ∀ c ∈ cs, c.1 < heapStart) {v : ℕ} (hv : v < heapStart) {q : Rights}
    (hq : ∀ c ∈ cs, c.1 / pageSize = v / pageSize → c.2 = q)
    (hsome : entryRights (σ.leaf P v) = q ∨ ∃ c ∈ cs, c.1 / pageSize = v / pageSize) :
    entryRights ((cs.foldl (Paging.permit P) σ).leaf P v) = q := by
  induction cs generalizing σ with
  | nil => simpa using hsome
  | cons c cs ih =>
      obtain ⟨hc, hcs⟩ := List.forall_mem_cons.mp hcs
      obtain ⟨hqc, hqcs⟩ := List.forall_mem_cons.mp hq
      obtain ⟨hlow, hstep⟩ := h.permit hc
      have hleaf := (hstep v hv).2
      rw [List.foldl_cons]
      refine ih hlow hcs hqcs ?_
      by_cases hp : c.1 / pageSize = v / pageSize
      · left
        rw [hleaf, if_pos hp, hqc hp]
      · rw [hleaf, if_neg hp]
        rcases hsome with hold | ⟨d, hd, hdp⟩
        · exact .inl hold
        · rcases List.mem_cons.mp hd with rfl | hd
          · exact absurd hdp hp
          · exact .inr ⟨d, hd, hdp⟩

/-- The directories have the user bit of the last call. -/
theorem LowMap.grants_foldl {σ : Paging} (h : LowMap P σ) {cs : List (ℕ × Rights)}
    (hcs : ∀ c ∈ cs, c.1 < heapStart) {ds : List (ℕ × Rights)} (hds : ds ≠ [])
    (hdl : ∀ d ∈ ds, d.1 < heapStart) {u : Bool} (hu : ∀ d ∈ ds, d.2.user = u) {v : ℕ}
    (hv : v < heapStart) :
    ((cs ++ ds).foldl (Paging.permit P) σ).grants P (dirsOf v) = ⟨u, true, true⟩ := by
  obtain ⟨es, d, rfl⟩ := (List.eq_nil_or_concat ds).resolve_left hds
  rw [List.concat_eq_append] at hdl hu ⊢
  have hd : d ∈ es ++ [d] := by simp
  have hes : ∀ e ∈ es, e.1 < heapStart := fun e he => hdl e (List.mem_append_left _ he)
  have hlow := (h.foldl hcs).foldl hes
  rw [← List.append_assoc, List.foldl_append, List.foldl_append, List.foldl_cons, List.foldl_nil,
    ((hlow.permit (hdl d hd)).2 v hv).1, hu d hd]

/-! ## The calls of `vmm_set_page_permissions` -/

end Paging

namespace Layout
open Paging
variable {P : Platform} (L : Layout)

/-- The calls for section `s`. -/
def calls (s : Section) : List (ℕ × Rights) :=
  (visited (L.start s) (L.stop s)).map fun a => (a, s.rights)

/-- The sections after the boot sector, in the order of the calls. -/
def kernelSections : List Section := [.kernelText, .kernelRodata, .kernelData, .kernelBss]

def osSections : List Section := [.osText, .osRodata, .osData, .osBss]

/-- The value with which the pointer into the boot sector ends. -/
def bootEnd : ℕ := L.start .boot + rounds (L.start .boot) (L.stop .boot) * pageSize

/-- The first two loops: the boot sector, and everything below where its pointer ended. -/
def bootCalls : List (ℕ × Rights) :=
  L.calls .boot ++ (visited 0 L.bootEnd).map fun a => (a, Section.boot.rights)

/-- The other eight loops. -/
def sectionCalls : List (ℕ × Rights) :=
  kernelSections.flatMap L.calls ++ osSections.flatMap L.calls

/-- The calls of `vmm_set_page_permissions`, in order. -/
def permissionCalls : List (ℕ × Rights) := L.bootCalls ++ L.sectionCalls

theorem vmmSetPagePermissions_eq (σ : Paging) :
    σ.vmmSetPagePermissions P L = L.permissionCalls.foldl (permit P) σ := by
  have hend := setPermissions_fst (P := P) Section.boot.rights (L.stop .boot) (L.start .boot) σ
  simp only [Section.rights] at hend
  simp only [vmmSetPagePermissions, permissionCalls, bootCalls, sectionCalls, bootEnd, hend,
    kernelSections, osSections, List.flatMap_cons, List.flatMap_nil, List.append_nil,
    List.foldl_append, calls, ← setPermissions_eq, Section.rights]

theorem bootEnd_bounds (L : Layout) :
    L.stop .boot ≤ L.bootEnd ∧ L.bootEnd < L.stop .boot + pageSize := by
  have := L.le .boot
  simp only [bootEnd, rounds, pageSize]
  omega

variable {L}

theorem mem_calls {s : Section} {c : ℕ × Rights} (h : c ∈ L.calls s) :
    c.1 < L.stop s ∧ L.InSection s (c.1 / pageSize) ∧ c.2 = s.rights := by
  obtain ⟨a, ha, rfl⟩ := List.mem_map.mp h
  obtain ⟨hlt, i, rfl⟩ := mem_visited.mp ha
  refine ⟨hlt, ⟨by omega, ?_, ?_⟩, rfl⟩
  · simp only [pageSize]
    omega
  · simp only [pageSize] at hlt ⊢
    omega

/-- The loop reaches every page of a section that starts on a page boundary. -/
theorem exists_call {s : Section} (hs : s ≠ .boot) {p : ℕ} (hp : L.InSection s p) :
    ∃ c ∈ L.calls s, c.1 / pageSize = p := by
  obtain ⟨-, hstart, hstop⟩ := hp
  have hal := L.aligned s hs
  refine ⟨(p * pageSize, s.rights), List.mem_map.mpr ⟨p * pageSize, mem_visited.mpr ?_, rfl⟩, ?_⟩
  · simp only [pageSize] at *
    exact ⟨hstop, p - L.start s / 4096, by omega⟩
  · simp only [pageSize]
    omega

theorem exists_of_mem_sectionCalls {c : ℕ × Rights} (hc : c ∈ L.sectionCalls) :
    ∃ s : Section, s ≠ .boot ∧ c ∈ L.calls s := by
  simp only [sectionCalls, List.mem_append, List.mem_flatMap, kernelSections, osSections, List.mem_cons,
    List.not_mem_nil, or_false] at hc
  rcases hc with ⟨s, hs, hc⟩ | ⟨s, hs, hc⟩
  · exact ⟨s, by rcases hs with rfl | rfl | rfl | rfl <;> decide, hc⟩
  · exact ⟨s, by rcases hs with rfl | rfl | rfl | rfl <;> decide, hc⟩

theorem mem_sectionCalls {s : Section} (hs : s ≠ .boot) {c : ℕ × Rights} (hc : c ∈ L.calls s) :
    c ∈ L.sectionCalls := by
  simp only [sectionCalls, List.mem_append, List.mem_flatMap]
  cases s with
  | boot => exact absurd rfl hs
  | kernelText | kernelRodata | kernelData | kernelBss =>
      exact .inl ⟨_, by simp [kernelSections], hc⟩
  | osText | osRodata | osData | osBss => exact .inr ⟨_, by simp [osSections], hc⟩

theorem osCalls_ne_nil : osSections.flatMap L.calls ≠ [] := by
  obtain ⟨s, hos, hlt⟩ := L.os
  have hcall : (L.start s, s.rights) ∈ L.calls s :=
    List.mem_map.mpr ⟨L.start s, mem_visited.mpr ⟨hlt, 0, by simp⟩, rfl⟩
  have hmem : s ∈ osSections := by
    cases s <;> first | exact absurd hos (by decide) | simp [osSections]
  exact List.ne_nil_of_mem (List.mem_flatMap.mpr ⟨s, hmem, hcall⟩)

theorem user_of_osCall {c : ℕ × Rights} (hc : c ∈ osSections.flatMap L.calls) :
    c.2.user = true := by
  obtain ⟨s, hs, hc⟩ := List.mem_flatMap.mp hc
  rw [(mem_calls hc).2.2]
  simp only [osSections, List.mem_cons, List.not_mem_nil, or_false] at hs
  rcases hs with rfl | rfl | rfl | rfl <;> rfl

/-- The boot sector ends at least a page before 2 MB. -/
theorem stop_boot_le (L : Layout) : L.stop .boot + pageSize ≤ heapStart := by
  obtain ⟨s, hos, hlt⟩ := L.os
  have hs : s ≠ .boot := by
    rintro rfl
    exact absurd hos (by decide)
  have h₁ := L.bootFirst s hs hlt
  have h₂ := L.aligned s hs
  have h₃ := L.low s
  simp only [pageSize, heapStart] at *
  omega

theorem sectionCalls_low {c : ℕ × Rights} (hc : c ∈ L.sectionCalls) : c.1 < heapStart := by
  obtain ⟨s, -, hc⟩ := exists_of_mem_sectionCalls hc
  exact lt_of_lt_of_le (mem_calls hc).1 (L.low s)

theorem mem_bootCalls {c : ℕ × Rights} (hc : c ∈ L.bootCalls) :
    c.1 < heapStart ∧ c.2 = Section.boot.rights := by
  rcases List.mem_append.mp hc with hc | hc
  · exact ⟨lt_of_lt_of_le (mem_calls hc).1 (L.low .boot), (mem_calls hc).2.2⟩
  · obtain ⟨a, ha, rfl⟩ := List.mem_map.mp hc
    have h₁ := (mem_visited.mp ha).1
    have h₂ := L.bootEnd_bounds.2
    have h₃ := L.stop_boot_le
    exact ⟨by simp only; omega, rfl⟩

theorem permissionCalls_low {c : ℕ × Rights} (hc : c ∈ L.permissionCalls) : c.1 < heapStart := by
  rcases List.mem_append.mp hc with hc | hc
  · exact (mem_bootCalls hc).1
  · exact sectionCalls_low hc

/-- In the end the directories grant everything: the last call is one for ring 3. -/
theorem grants_permissionCalls {σ : Paging} (h : LowMap P σ) {v : ℕ} (hv : v < heapStart) :
    (L.permissionCalls.foldl (permit P) σ).grants P (dirsOf v) = ⟨true, true, true⟩ := by
  rw [permissionCalls, sectionCalls, ← List.append_assoc]
  refine h.grants_foldl ?_ osCalls_ne_nil ?_ (fun d hd => user_of_osCall hd) hv
  · intro c hc
    rcases List.mem_append.mp hc with hc | hc
    · exact (mem_bootCalls hc).1
    · exact sectionCalls_low (List.mem_append_left _ hc)
  · exact fun d hd => sectionCalls_low (List.mem_append_right _ hd)

/-- After the first two loops only the loop of its own section visits a page. -/
theorem entryRights_section {σ : Paging} (h : LowMap P σ) {v : ℕ} (hv : v < heapStart)
    {s : Section} (hs : s ≠ .boot) (hin : L.InSection s (v / pageSize)) :
    entryRights ((L.permissionCalls.foldl (permit P) σ).leaf P v) = s.rights := by
  rw [permissionCalls, List.foldl_append]
  refine (h.foldl fun c hc => (mem_bootCalls hc).1).entryRights_foldl
    (fun c hc => sectionCalls_low hc) hv (fun c hc hp => ?_) (.inr ?_)
  · obtain ⟨t, -, hc⟩ := exists_of_mem_sectionCalls hc
    obtain ⟨-, hin', hr⟩ := mem_calls hc
    rw [hp] at hin'
    rw [hr, L.apart t s _ hin' hin]
  · obtain ⟨c, hc, hp⟩ := exists_call hs hin
    exact ⟨c, mem_sectionCalls hs hc, hp⟩

/-- The second loop visits every page up to the end of the boot sector, and no later one
does. -/
theorem entryRights_boot {σ : Paging} (h : LowMap P σ) {v : ℕ} (hv : v < heapStart)
    (hend : v / pageSize * pageSize < L.stop .boot) :
    entryRights ((L.permissionCalls.foldl (permit P) σ).leaf P v) = Section.boot.rights := by
  refine h.entryRights_foldl (fun c hc => permissionCalls_low hc) hv (fun c hc hp => ?_) (.inr ?_)
  · rcases List.mem_append.mp hc with hc | hc
    · exact (mem_bootCalls hc).2
    · obtain ⟨s, hs, hc⟩ := exists_of_mem_sectionCalls hc
      obtain ⟨-, ⟨hne, hstart, -⟩, -⟩ := mem_calls hc
      have hfirst := L.bootFirst s hs hne
      have hal := L.aligned s hs
      rw [hp] at hstart
      simp only [pageSize] at *
      omega
  · refine ⟨(v / pageSize * pageSize, Section.boot.rights), ?_, ?_⟩
    · refine List.mem_append_left _ (List.mem_append_right _ (List.mem_map.mpr ?_))
      have := L.bootEnd_bounds.1
      exact ⟨_, mem_visited.mpr ⟨by omega, v / pageSize, by simp⟩, rfl⟩
    · simp only [pageSize]
      omega

/-- The directories grant everything, so the leaf decides. -/
theorem rights_permissionCalls {σ : Paging} (h : LowMap P σ) {v : ℕ} (hv : v < heapStart) :
    (L.permissionCalls.foldl (permit P) σ).rights P v =
      entryRights ((L.permissionCalls.foldl (permit P) σ).leaf P v) := by
  rw [rights_eq, grants_permissionCalls h hv]
  simp [Rights.meet]

/-- **Every page has the rights of its section.** After `vmm_set_page_permissions` the
first 2 MB are still mapped to themselves; the pages of each section have exactly the
rights of the section, and so have all pages up to the end of the boot sector. -/
theorem vmmSetPagePermissions_rights (L : Layout) {σ : Paging} (h : WellFormed P σ)
    (hid : ∀ v < heapStart, σ.translate P v = some (v / pageSize * pageSize)) {v : ℕ}
    (hv : v < heapStart) :
    (σ.vmmSetPagePermissions P L).translate P v = some (v / pageSize * pageSize) ∧
    (∀ s, s ≠ .boot → L.InSection s (v / pageSize) →
      (σ.vmmSetPagePermissions P L).rights P v = s.rights) ∧
    (v / pageSize * pageSize < L.stop .boot →
      (σ.vmmSetPagePermissions P L).rights P v = ⟨false, true, true⟩) := by
  have hlow : LowMap P σ := ⟨h, hid⟩
  rw [L.vmmSetPagePermissions_eq, rights_permissionCalls hlow hv]
  refine ⟨(hlow.foldl fun c hc => permissionCalls_low hc).low v hv, fun s hs hin => ?_,
    fun hend => ?_⟩
  · exact entryRights_section hlow hv hs hin
  · exact entryRights_boot hlow hv hend

/-- Ranges with no page in common. -/
theorem not_occupies_both {a b c d p : ℕ}
    (h : (b - 1) / pageSize < c / pageSize ∨ (d - 1) / pageSize < a / pageSize)
    (hab : Occupies a b p) (hcd : Occupies c d p) : False := by
  simp only [Occupies, pageSize] at *
  omega

/-- The layout of a small image. -/
def sample : Layout where
  start
    | .boot => 0x7c00
    | .kernelText => 0x9000
    | .kernelRodata => 0xa000
    | .kernelData => 0xb000
    | .osText => 0xc000
    | .osRodata => 0xd000
    | .osData => 0xe000
    | .kernelBss => 0x10000
    | .osBss => 0x18000
  stop
    | .boot => 0x8200
    | .kernelText => 0xa000
    | .kernelRodata => 0xa400
    | .kernelData => 0xb010
    | .osText => 0xcf00
    | .osRodata => 0xd800
    | .osData => 0xe100
    | .kernelBss => 0x17800
    | .osBss => 0x1a000
  le := by intro s; cases s <;> decide
  low := by intro s; cases s <;> decide
  aligned := by intro s; cases s <;> decide
  apart := by
    intro s t p hs ht
    by_contra hne
    refine not_occupies_both ?_ hs ht
    clear hs ht
    revert hne
    cases s <;> cases t <;> decide
  bootFirst := by intro s; cases s <;> decide
  os := ⟨.osText, rfl, by decide⟩

/-- The pages of `OS_TEXT` in the sample. -/
theorem vmmSetPagePermissions_osText :
    (Boot.sample.paging.vmmSetPagePermissions Boot.sample.platform sample).rights
      Boot.sample.platform 0xc000 = ⟨true, false, true⟩ :=
  (vmmSetPagePermissions_rights sample Boot.sample.wellFormed (identity_boot Boot.sample).low
    (show 0xc000 < heapStart by decide)).2.1 .osText (by decide)
    ⟨by decide, by decide, by decide⟩

end Layout
end BootableKernel
