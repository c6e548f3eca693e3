import BootableKernel.Memory.Stores

/-!
# What may be loaded during a call

`set_page_permission` sets the flags of the four entries from the root down, the leaf's
last, and only then takes the rights from the leaf that the page is not to have. In between
the page may be walked. `setPagePermissionStores_lookup_iff` says when all that can be
loaded during the call is what the tables say after it, and `vmmMapMemoryStores_lookup_iff`
says so for `vmm_map_memory`.
-/

namespace BootableKernel

namespace Paging
variable {P : Platform}

/-! ## The stages of `set_page_permission` -/

section
variable (σ : Paging) (v : ℕ) (isOs w x : Bool)

/-- The first `k` entries of the page have their flags. -/
def flagged (P : Platform) (σ : Paging) (v : ℕ) (isOs : Bool) (k : ℕ) : Paging :=
  σ.rewriteAll (setFlags isOs) ((σ.walkOf P v).take k)

@[simp] theorem frameOf_flagged (k : ℕ) (y : ℕ × Index) :
    frameOf ((σ.flagged P v isOs k).entry y) = frameOf (σ.entry y) :=
  keeps_rewriteAll (frameOf_setFlags isOs) σ _ y

theorem frameOf_store_setFlags (t t' : ℕ) (i i' : Index) :
    frameOf ((σ.store t i (setFlags isOs (σ.mem t i))).mem t' i') = frameOf (σ.mem t' i') :=
  keeps_rewriteAll (frameOf_setFlags isOs) σ [(t, i)] (t', i')

/-- The tables between the stores: the four entries get their flags one after the other, and
then the leaf loses what it is not to grant. -/
theorem setPagePermissionStores_eq : ∃ σ₅ σ₆,
    σ.setPagePermissionStores P v isOs w x =
      (List.range 5).map (σ.flagged P v isOs) ++ [σ₅, σ₆] ∧
    σ₅ = (if x then σ.flagged P v isOs 4 else
      (σ.flagged P v isOs 4).rewrite (· ||| noExecBit) (σ.leafPlace P v)) ∧
    σ₆ = (if w then σ₅ else σ₅.rewrite (· &&& ~~~readWriteBit) (σ.leafPlace P v)) := by
  refine ⟨_, _, ?_, rfl, rfl⟩
  simp only [setPagePermissionStores, frameOf_store_setFlags]
  rfl

theorem setPagePermission_eq : σ.setPagePermission P v isOs w x =
    ((σ.flagged P v isOs 3).rewrite (leafFlags isOs w x) (σ.leafPlace P v)).flushTlb
      (leafFlags isOs w x ((σ.flagged P v isOs 3).entry (σ.leafPlace P v))).toNat := by
  simp only [setPagePermission, frameOf_store_setFlags, frameOf_setFlags, mem_store_self]
  rfl

theorem entryRights_flagged (k : ℕ) (y : ℕ × Index) :
    entryRights ((σ.flagged P v isOs k).entry y) =
      if y ∈ (σ.walkOf P v).take k then ⟨isOs, true, true⟩ else entryRights (σ.entry y) :=
  sets_rewriteAll (entryRights_setFlags isOs) σ _ y

theorem isPresent_flagged (k : ℕ) (y : ℕ × Index) :
    isPresent ((σ.flagged P v isOs k).entry y) =
      if y ∈ (σ.walkOf P v).take k then true else isPresent (σ.entry y) :=
  sets_rewriteAll (isPresent_setFlags isOs) σ _ y

/-- What the processor would load when `k` entries have their flags. -/
theorem lookup_flagged (k : ℕ) : (σ.flagged P v isOs k).lookup P v =
    if ∀ y ∈ σ.walkOf P v, y ∈ (σ.walkOf P v).take k ∨ isPresent (σ.entry y) = true then
      some (frameOf (σ.entry (σ.leafPlace P v)), together ((σ.walkOf P v).map fun y =>
        if y ∈ (σ.walkOf P v).take k then ⟨isOs, true, true⟩ else entryRights (σ.entry y)))
    else none := by
  obtain ⟨hwalk, hleaf⟩ := walkOf_congr (P := P) (frameOf_flagged (P := P) σ v isOs k) v
  have hor : ∀ (c : Prop) [Decidable c] (b : Bool),
      ((if c then true else b) = true) = (c ∨ b = true) := by
    intro c _ b
    by_cases hc : c <;> simp [hc]
  simp only [lookup_eq, hwalk, hleaf, frameOf_flagged, entryRights_flagged, isPresent_flagged, hor]

/-- What the processor would load after the call. -/
theorem lookup_setPagePermission : (σ.setPagePermission P v isOs w x).lookup P v =
    some (frameOf (σ.entry (σ.leafPlace P v)), ⟨isOs, w, x⟩) := by
  have hmem : ∀ y, (σ.setPagePermission P v isOs w x).entry y =
      ((σ.flagged P v isOs 3).rewrite (leafFlags isOs w x) (σ.leafPlace P v)).entry y := by
    intro y
    rw [setPagePermission_eq]
    rfl
  have hframe : ∀ y, frameOf ((σ.setPagePermission P v isOs w x).entry y) =
      frameOf (σ.entry y) := by
    intro y
    rw [hmem, entry_rewrite]
    split
    next h => rw [frameOf_leafFlags, frameOf_flagged, h]
    next => rw [frameOf_flagged]
  obtain ⟨hwalk, hleaf⟩ := walkOf_congr (P := P) hframe v
  -- Every entry is the leaf or has just the flags of its level.
  have hor : ∀ y ∈ σ.walkOf P v, y = σ.leafPlace P v ∨ y ∈ (σ.walkOf P v).take 3 := by
    intro y hy
    simpa [walkOf, leafPlace, or_comm, or_assoc, or_left_comm] using hy
  have hpresent : ∀ y ∈ σ.walkOf P v,
      isPresent ((σ.setPagePermission P v isOs w x).entry y) = true := by
    intro y hy
    rw [hmem, entry_rewrite]
    split
    next => rw [isPresent_leafFlags]
    next hne => rw [isPresent_flagged, if_pos ((hor y hy).resolve_left hne)]
  have hrights : ∀ y ∈ σ.walkOf P v,
      entryRights ((σ.setPagePermission P v isOs w x).entry y) =
        if y = σ.leafPlace P v then ⟨isOs, w, x⟩ else ⟨isOs, true, true⟩ := by
    intro y hy
    rw [hmem, entry_rewrite]
    split
    next => rw [entryRights_leafFlags]
    next hne => rw [entryRights_flagged, if_pos ((hor y hy).resolve_left hne)]
  rw [lookup_of_present (hwalk.symm ▸ hpresent), hleaf, hwalk, hframe]
  refine congrArg (fun r => some (_, r)) (together_eq ?_ fun s hs => ?_)
  · refine List.mem_map.mpr ⟨_, σ.leafPlace_mem v, ?_⟩
    rw [hrights _ (σ.leafPlace_mem v), if_pos rfl]
  · obtain ⟨y, hy, rfl⟩ := List.mem_map.mp hs
    rw [hrights y hy]
    split <;> simp [Rights.meet]

/-- The entries of the page, as the stores of the call reach them one by one, never grant
anything but `r`: whatever the number of entries that grant `r` already, the rest have one
that is absent, or make it `r` in all. -/
def Settled (P : Platform) (σ : Paging) (v : ℕ) (r : Rights) : Prop :=
  ∀ k < 4, (∀ y ∈ σ.walkOf P v, y ∈ (σ.walkOf P v).take k ∨ isPresent (σ.entry y) = true) →
    together ((σ.walkOf P v).map fun y =>
      if y ∈ (σ.walkOf P v).take k then r else entryRights (σ.entry y)) = r

/-- A page that is mapped is settled when it has the rights. -/
theorem settled_iff_of_mapped {σ : Paging} {v : ℕ} (h : Mapped P σ v) (r : Rights) :
    Settled P σ v r ↔ σ.rights P v = r := by
  have hp := present_of_mapped h
  rw [rights_of_present hp]
  constructor
  · intro hs
    simpa using hs 0 (by decide) fun y hy => .inr (hp y hy)
  · intro hr k _ _
    exact together_ite hr _

/-- When all four entries grant `r`, so does the page. -/
theorem together_flagged (r : Rights) : together ((σ.walkOf P v).map fun y =>
    if y ∈ (σ.walkOf P v).take 4 then r else entryRights (σ.entry y)) = r := by
  have htake : (σ.walkOf P v).take 4 = σ.walkOf P v := rfl
  rw [htake]
  refine together_eq (List.mem_map.mpr ⟨_, σ.leafPlace_mem v, if_pos (σ.leafPlace_mem v)⟩) ?_
  intro s hs
  obtain ⟨y, hy, rfl⟩ := List.mem_map.mp hs
  simp only [if_pos hy, Rights.meet, Bool.and_self]

/-- **What may be loaded during the call is what the tables say after it** exactly when the
page is made writable and executable and was settled. -/
theorem setPagePermissionStores_lookup_iff :
    (∀ τ ∈ σ.setPagePermissionStores P v isOs w x, ∀ e, τ.lookup P v = some e →
      (σ.setPagePermission P v isOs w x).lookup P v = some e) ↔
      w = true ∧ x = true ∧ Settled P σ v ⟨isOs, true, true⟩ := by
  obtain ⟨σ₅, σ₆, hstores, h₅, h₆⟩ := setPagePermissionStores_eq (P := P) σ v isOs w x
  rw [hstores, lookup_setPagePermission]
  have hflagged : ∀ k, (∀ e, (σ.flagged P v isOs k).lookup P v = some e →
      some (frameOf (σ.entry (σ.leafPlace P v)), (⟨isOs, w, x⟩ : Rights)) = some e) ↔
      ((∀ y ∈ σ.walkOf P v, y ∈ (σ.walkOf P v).take k ∨ isPresent (σ.entry y) = true) →
        together ((σ.walkOf P v).map fun y =>
          if y ∈ (σ.walkOf P v).take k then ⟨isOs, true, true⟩ else entryRights (σ.entry y)) =
          ⟨isOs, w, x⟩) := by
    intro k
    rw [lookup_flagged]
    split
    next hp =>
      refine ⟨fun h _ => ?_, fun h e he => ?_⟩
      · exact (Prod.mk.inj (Option.some.inj (h _ rfl))).2.symm
      · rw [← he, h hp]
    next hp => exact iff_of_true (fun e he => absurd he (by simp)) fun hc => absurd hc hp
  constructor
  · intro h
    -- With all four flags set the page is writable and executable.
    have h₄ := (hflagged 4).mp (h _ (List.mem_append_left _ (List.mem_map_of_mem (by decide))))
    have hall := h₄ fun y hy => .inl hy
    rw [together_flagged, Rights.mk.injEq] at hall
    obtain ⟨-, rfl, rfl⟩ := hall
    refine ⟨rfl, rfl, fun k hk => ?_⟩
    have hmem : k ∈ List.range 5 := List.mem_range.mpr (by omega)
    exact (hflagged k).mp (h _ (List.mem_append_left _ (List.mem_map_of_mem hmem)))
  · rintro ⟨rfl, rfl, hs⟩ τ hτ
    -- There are no stores after the flags.
    rw [if_pos rfl] at h₅ h₆
    obtain ⟨k, hk, rfl⟩ : ∃ k < 5, σ.flagged P v isOs k = τ := by
      rcases List.mem_append.mp hτ with hτ | hτ
      · obtain ⟨k, hk, rfl⟩ := List.mem_map.mp hτ
        exact ⟨k, List.mem_range.mp hk, rfl⟩
      · simp only [List.mem_cons, List.not_mem_nil, or_false, h₆, h₅, or_self] at hτ
        exact ⟨4, by decide, hτ.symm⟩
    rw [hflagged k]
    rcases Nat.lt_succ_iff_lt_or_eq.mp hk with hlt | rfl
    · exact hs k hlt
    · exact fun _ => together_flagged σ v ⟨isOs, true, true⟩

end

/-! ## The stages of `vmm_map_memory` -/

/-- What `vmm_map_memory` makes of a present directory entry. -/
def reflag (flags e : Entry) : Entry := (e &&& lowMask) ||| flags

section
variable {flags : Entry}

theorem frameOf_reflag (hF : FlagWord flags) (e : Entry) :
    frameOf (reflag flags e) = frameOf e := by
  rw [reflag, hF.frameOf_or, frameOf_and_lowMask]

theorem isPresent_reflag (hF : FlagWord flags) (e : Entry) :
    isPresent (reflag flags e) = true := hF.isPresent_or _

@[simp] theorem isUser_reflag (flags e : Entry) : isUser (reflag flags e) = isUser flags := by
  rw [reflag, isUser_eq, isUser_eq, BitVec.getLsbD_or, BitVec.getLsbD_and]
  simp [lowMask]

@[simp] theorem isWritable_reflag (flags e : Entry) :
    isWritable (reflag flags e) = isWritable flags := by
  rw [reflag, isWritable_eq, isWritable_eq, BitVec.getLsbD_or, BitVec.getLsbD_and]
  simp [lowMask]

/-- The no-execute bit stays. -/
theorem isNoExec_reflag (flags : Entry) {e : Entry} (h : isNoExec e = true) :
    isNoExec (reflag flags e) = true := by
  rw [isNoExec_eq] at h
  rw [reflag, isNoExec_eq, BitVec.getLsbD_or, BitVec.getLsbD_and, h]
  simp [lowMask]

variable (σ : Paging) (v : ℕ)

/-- The first `k` entries of the page have the flags of the mapping. -/
def reflagged (P : Platform) (σ : Paging) (v : ℕ) (flags : Entry) (k : ℕ) : Paging :=
  σ.rewriteAll (reflag flags) ((σ.walkOf P v).take k)

theorem frameOf_reflagged (hF : FlagWord flags) (k : ℕ) (y : ℕ × Index) :
    frameOf ((σ.reflagged P v flags k).entry y) = frameOf (σ.entry y) :=
  keeps_rewriteAll (frameOf_reflag hF) σ _ y

theorem isPresent_reflagged (hF : FlagWord flags) (k : ℕ) {y : ℕ × Index}
    (hy : isPresent (σ.entry y) = true) :
    isPresent ((σ.reflagged P v flags k).entry y) = true := by
  rw [reflagged, sets_rewriteAll (isPresent_reflag hF), hy, ite_self]

theorem ensureTable_of_present (P : Platform) (flags : Entry) {t : ℕ} {i : Index}
    (h : isPresent (σ.entry (t, i)) = true) :
    σ.ensureTable P t i flags = σ.rewrite (reflag flags) (t, i) ∧
    σ.ensureTableStores P t i flags = [σ.rewrite (reflag flags) (t, i)] := by
  have hp : isPresent (σ.mem t i) = true := h
  rw [ensureTableStores, ensureTable, if_pos hp, if_pos hp]
  exact ⟨rfl, rfl⟩

/-- On a page that is mapped the four entries get the flags one after the other. -/
theorem vmmMapMemory_of_mapped (hF : FlagWord flags) {σ : Paging} {v : ℕ} (hm : Mapped P σ v)
    (physical : ℕ) :
    σ.vmmMapMemoryStores P physical v flags =
      (List.range 4).map (σ.reflagged P v flags) ++ [σ.vmmMapMemory P physical v flags] ∧
    σ.vmmMapMemory P physical v flags = ((σ.reflagged P v flags 3).rewrite
      (fun e => reflag flags e ||| noExecBit) (σ.leafPlace P v)).flushTlb physical := by
  have hp := present_of_mapped hm
  simp only [walkOf, List.forall_mem_cons, List.not_mem_nil, false_implies, implies_true,
    and_true] at hp
  obtain ⟨h₄, h₃, h₂, h₁⟩ := hp
  have f : ∀ k t i, frameOf ((σ.reflagged P v flags k).mem t i) = frameOf (σ.mem t i) :=
    fun k t i => frameOf_reflagged σ v hF k (t, i)
  -- Each level rewrites one entry more.
  have level : ∀ k x, (σ.walkOf P v)[k]? = some x → isPresent (σ.entry x) = true →
      (σ.reflagged P v flags k).ensureTable P x.1 x.2 flags = σ.reflagged P v flags (k + 1) ∧
      (σ.reflagged P v flags k).ensureTableStores P x.1 x.2 flags =
        [σ.reflagged P v flags (k + 1)] := by
    intro k x hx hpx
    obtain ⟨e, s⟩ := ensureTable_of_present (σ.reflagged P v flags k) P flags
      (isPresent_reflagged σ v hF k hpx)
    have hnext : (σ.reflagged P v flags k).rewrite (reflag flags) x =
        σ.reflagged P v flags (k + 1) := by
      rw [reflagged, reflagged, List.take_add_one, hx, rewriteAll, rewriteAll, List.foldl_append]
      rfl
    exact ⟨e.trans hnext, s.trans (congrArg (fun τ => [τ]) hnext)⟩
  have e₁ : σ.ensureTable P P.pt4 (pt4Index v) flags = _ := (level 0 _ rfl h₄).1
  have e₂ : (σ.reflagged P v flags 1).ensureTable P _ (pt3Index v) flags = _ := (level 1 _ rfl h₃).1
  have e₃ : (σ.reflagged P v flags 2).ensureTable P _ (pt2Index v) flags = _ := (level 2 _ rfl h₂).1
  have s₁ : σ.ensureTableStores P P.pt4 (pt4Index v) flags = _ := (level 0 _ rfl h₄).2
  have s₂ : (σ.reflagged P v flags 1).ensureTableStores P _ (pt3Index v) flags = _ :=
    (level 1 _ rfl h₃).2
  have s₃ : (σ.reflagged P v flags 2).ensureTableStores P _ (pt2Index v) flags = _ :=
    (level 2 _ rfl h₂).2
  have hleaf : isPresent ((σ.reflagged P v flags 3).mem (σ.leafPlace P v).1 (pageIndex v)) = true :=
    isPresent_reflagged σ v hF 3 h₁
  have hmap : σ.vmmMapMemory P physical v flags =
      (σ.reflagged P v flags 3).mapLeaf P (σ.leafPlace P v).1 physical v flags := by
    simp only [vmmMapMemory, e₁, f, e₂, e₃]
    rfl
  refine ⟨?_, ?_⟩
  · rw [hmap]
    simp only [vmmMapMemoryStores, e₁, f, e₂, e₃, s₁, s₂, s₃]
    rfl
  · rw [hmap, mapLeaf, if_pos hleaf]
    rfl

/-- What the processor would load after the mapping of a page that is mapped. -/
theorem lookup_vmmMapMemory (hF : FlagWord flags) {σ : Paging} {v : ℕ} (hm : Mapped P σ v)
    (physical : ℕ) : (σ.vmmMapMemory P physical v flags).lookup P v =
      some (frameOf (σ.entry (σ.leafPlace P v)), ⟨isUser flags, isWritable flags, false⟩) := by
  have hp := present_of_mapped hm
  have hmem : ∀ y, (σ.vmmMapMemory P physical v flags).entry y =
      ((σ.reflagged P v flags 3).rewrite (fun e => reflag flags e ||| noExecBit)
        (σ.leafPlace P v)).entry y := by
    intro y
    rw [(vmmMapMemory_of_mapped hF hm physical).2]
    rfl
  have hframe : ∀ y, frameOf ((σ.vmmMapMemory P physical v flags).entry y) =
      frameOf (σ.entry y) := by
    intro y
    rw [hmem, entry_rewrite]
    split
    next h => rw [frameOf_or_noExec, frameOf_reflag hF, frameOf_reflagged σ v hF, h]
    next => rw [frameOf_reflagged σ v hF]
  obtain ⟨hwalk, hleaf⟩ := walkOf_congr (P := P) hframe v
  have hor : ∀ y ∈ σ.walkOf P v, y = σ.leafPlace P v ∨ y ∈ (σ.walkOf P v).take 3 := by
    intro y hy
    simpa [walkOf, leafPlace, or_comm, or_assoc, or_left_comm] using hy
  have hpresent : ∀ y ∈ σ.walkOf P v,
      isPresent ((σ.vmmMapMemory P physical v flags).entry y) = true := by
    intro y hy
    rw [hmem, entry_rewrite]
    split
    next => rw [isPresent_or_noExec, isPresent_reflag hF]
    next => exact isPresent_reflagged σ v hF 3 (hp y hy)
  have hdata : ∀ y ∈ σ.walkOf P v,
      isUser ((σ.vmmMapMemory P physical v flags).entry y) = isUser flags ∧
      isWritable ((σ.vmmMapMemory P physical v flags).entry y) = isWritable flags := by
    intro y hy
    rw [hmem, entry_rewrite]
    split
    next => rw [isUser_or_noExec, isUser_reflag, isWritable_or_noExec, isWritable_reflag]; simp
    next hne =>
      rw [reflagged, sets_rewriteAll (isUser_reflag flags), sets_rewriteAll (isWritable_reflag flags),
        if_pos ((hor y hy).resolve_left hne), if_pos ((hor y hy).resolve_left hne)]
      simp
  rw [lookup_of_present (hwalk.symm ▸ hpresent), hleaf, hwalk, hframe]
  refine congrArg (fun r => some (_, r)) (together_eq ?_ fun s hs => ?_)
  · refine List.mem_map.mpr ⟨_, σ.leafPlace_mem v, ?_⟩
    rw [entryRights, (hdata _ (σ.leafPlace_mem v)).1, (hdata _ (σ.leafPlace_mem v)).2, hmem,
      entry_rewrite, if_pos rfl, isNoExec_or_noExec]
    rfl
  · obtain ⟨y, hy, rfl⟩ := List.mem_map.mp hs
    simp [Rights.meet, entryRights, hdata y hy]

/-- A page with the rights of the mapping keeps them while its entries are rewritten. -/
theorem together_reflagged (k : ℕ) {u w : Bool} (hu : isUser flags = u)
    (hw : isWritable flags = w)
    (h : together ((σ.walkOf P v).map fun y => entryRights (σ.entry y)) = ⟨u, w, false⟩) :
    together ((σ.walkOf P v).map fun y => entryRights ((σ.reflagged P v flags k).entry y)) =
      ⟨u, w, false⟩ := by
  subst hu hw
  simp only [Rights.ext_iff, together, List.all_map, Function.comp_def, entryRights] at h ⊢
  refine ⟨?_, ?_, ?_⟩
  · simp only [reflagged, sets_rewriteAll (isUser_reflag flags)]
    exact all_ite h.1 _
  · simp only [reflagged, sets_rewriteAll (isWritable_reflag flags)]
    exact all_ite h.2.1 _
  · -- The entry that forbids execution goes on to do so.
    obtain ⟨y, hy, hn⟩ := List.all_eq_false.mp h.2.2
    refine List.all_eq_false.mpr ⟨y, hy, ?_⟩
    rw [Bool.not_eq_true, Bool.not_eq_false'] at hn ⊢
    exact mono_rewriteAll (p := fun e => isNoExec e = true) (fun _ => isNoExec_reflag flags) σ _ hn

/-- What may be loaded while a page that is mapped is mapped again is what the tables say
after it exactly when the page had the rights of the mapping. -/
theorem vmmMapMemoryStores_lookup_iff (hF : FlagWord flags) {σ : Paging} {v : ℕ}
    (hm : Mapped P σ v) (physical : ℕ) :
    (∀ τ ∈ σ.vmmMapMemoryStores P physical v flags, ∀ e, τ.lookup P v = some e →
      (σ.vmmMapMemory P physical v flags).lookup P v = some e) ↔
      σ.rights P v = ⟨isUser flags, isWritable flags, false⟩ := by
  have hp := present_of_mapped hm
  obtain ⟨hstores, -⟩ := vmmMapMemory_of_mapped hF hm physical
  rw [hstores, lookup_vmmMapMemory hF hm]
  have hlookup : ∀ k, (σ.reflagged P v flags k).lookup P v =
      some (frameOf (σ.entry (σ.leafPlace P v)), together ((σ.walkOf P v).map fun y =>
        entryRights ((σ.reflagged P v flags k).entry y))) := by
    intro k
    obtain ⟨hwalk, hleaf⟩ := walkOf_congr (P := P) (frameOf_reflagged (P := P) σ v hF k) v
    rw [lookup_of_present, hleaf, hwalk, frameOf_reflagged σ v hF]
    rw [hwalk]
    exact fun y hy => isPresent_reflagged σ v hF k (hp y hy)
  rw [rights_of_present hp]
  constructor
  · intro h
    have h₀ := h _ (List.mem_append_left _ (List.mem_map_of_mem (List.mem_range.mpr
      (show 0 < 4 by decide)))) _ (hlookup 0)
    exact (Prod.mk.inj (Option.some.inj h₀)).2.symm
  · intro h τ hτ e he
    rcases List.mem_append.mp hτ with hτ | hτ
    · obtain ⟨k, -, rfl⟩ := List.mem_map.mp hτ
      rw [hlookup k] at he
      rw [← he, together_reflagged σ v k rfl rfl h]
    · rw [List.mem_singleton.mp hτ, lookup_vmmMapMemory hF hm] at he
      exact he

/-- The stores of a directory level are not seen at the leaf. -/
theorem Descent.leaf_stores {σ σ' : Paging} (h : WellFormed P σ) {p : List Index}
    {i : Index} {t t' : ℕ} (d : Descent P flags σ σ' p i t t') (hp : p.length < 3) (v : ℕ)
    {τ : Paging} (hτ : τ ∈ σ.ensureTableStores P t i flags) : τ.leaf P v = σ.leaf P v := by
  have hend : τ = σ.ensureTable P t i flags → τ.leaf P v = σ.leaf P v := by
    rintro rfl
    rw [← d.eq]
    exact d.leaf_eq hp v
  rw [ensureTableStores] at hτ
  by_cases hpres : isPresent (σ.mem t i) = true
  · rw [if_pos hpres] at hτ
    exact hend (List.mem_singleton.mp hτ)
  · rw [if_neg hpres] at hτ
    rcases List.mem_append.mp hτ with hτ | hτ
    · -- The frame that is being cleared is no table yet.
      obtain ⟨n, -, rfl⟩ := List.mem_map.mp hτ
      have habs : isPresent (σ.pte P p i) = false := by
        rw [pte_of_walk d.walk]
        simpa using hpres
      obtain ⟨f, hf, hfree, -⟩ := d.created habs
      obtain ⟨g, hg, hgfree, -, b, -, halloc⟩ := allocatePageTable_spec (P := P) ⟨f, hf, hfree⟩
      have hfresh := h.fresh g hg hgfree
      refine Radix.view_agree (d := 3) (fun q hq s hs => ?_) (by simp [tablePath]) _
      have hne : s ≠ frame P g := by
        rintro rfl
        exact hfresh q hq hs
      simp only [clearing, halloc]
      exact Function.update_of_ne hne _ _
    · exact hend (List.mem_singleton.mp hτ)

/-- While a page that is not mapped is being mapped, nothing can be loaded for it until its
leaf is written. -/
theorem lookup_stores_of_unmapped (hP : P.Valid) {σ : Paging} (h : WellFormed P σ)
    (hF : FlagWord flags) {v : ℕ} (hm : ¬ Mapped P σ v) (physical : ℕ)
    (hsupply : σ.lackingTables P v ≤ σ.freeFrames.card) {τ : Paging}
    (hτ : τ ∈ σ.vmmMapMemoryStores P physical v flags) :
    τ.lookup P v = none ∨ τ = σ.vmmMapMemory P physical v flags := by
  obtain ⟨σ₁, σ₂, σ₃, pt3, pt2, pageTable, d₁, d₂, d₃, heq⟩ :=
    vmmMapMemory_descends hP h physical v hF hsupply
  have hnone : σ.translate P v = none := by
    by_contra hc
    obtain ⟨a, ha⟩ := Option.ne_none_iff_exists'.mp hc
    exact hm (mapped_of_translate ha)
  have hleaf : τ.leaf P v = σ.leaf P v → τ.lookup P v = none := by
    intro he
    rw [lookup_eq_none, translate, he, ← translate, hnone]
  simp only [vmmMapMemoryStores, ← d₁.eq, ← d₁.next, ← d₂.eq, ← d₂.next, ← d₃.eq, ← d₃.next,
    ← heq, List.mem_append, List.mem_singleton] at hτ
  have hv₁ := d₁.leaf_eq (by simp) v
  have hv₂ := d₂.leaf_eq (by simp) v
  rcases hτ with (((rfl | hτ) | hτ) | hτ) | hτ
  · exact .inl (lookup_eq_none.mpr hnone)
  · exact .inl (hleaf (d₁.leaf_stores h (by simp) v hτ))
  · exact .inl (hleaf ((d₂.leaf_stores d₁.wf (by simp) v hτ).trans hv₁))
  · exact .inl (hleaf ((d₃.leaf_stores d₂.wf (by simp) v hτ).trans (hv₂.trans hv₁)))
  · exact .inr hτ

end

end Paging
end BootableKernel
