import BootableKernel.Memory.Access
import BootableKernel.Memory.Mapping

/-!
# Effective rights

A page grants ring 3 access, writing or execution only if all four of its entries do. On a
page that is mapped, `set_page_permission` leaves exactly the rights of its arguments.
-/

namespace BootableKernel

/-- What a page may be used for. -/
@[ext] structure Rights where
  /-- Access from ring 3. -/
  user : Bool
  writable : Bool
  executable : Bool
  deriving DecidableEq, Repr

/-- What two entries grant together. -/
def Rights.meet (a b : Rights) : Rights where
  user := a.user && b.user
  writable := a.writable && b.writable
  executable := a.executable && b.executable

def isWritable (e : Entry) : Bool := e &&& readWriteBit != 0

theorem isWritable_eq (e : Entry) : isWritable e = e.getLsbD 1 := and_bit_ne_zero e 1 (by decide)

/-- The rights an entry grants. -/
def entryRights (e : Entry) : Rights := ⟨isUser e, isWritable e, !isNoExec e⟩

namespace Paging
variable {P : Platform}

/-- What the entries at the positions `l` grant together. -/
def grants (P : Platform) (σ : Paging) (l : List (List Index × Index)) : Rights where
  user := l.all fun x => isUser (σ.pte P x.1 x.2)
  writable := l.all fun x => isWritable (σ.pte P x.1 x.2)
  executable := l.all fun x => !isNoExec (σ.pte P x.1 x.2)

/-- The effective rights of the page of `v`, over its four entries. -/
def rights (P : Platform) (σ : Paging) (v : ℕ) : Rights := σ.grants P (entriesOf v)

theorem rights_eq (σ : Paging) (v : ℕ) :
    σ.rights P v = (σ.grants P (dirsOf v)).meet (entryRights (σ.leaf P v)) := by
  simp [rights, entriesOf, grants, Rights.meet, entryRights, leaf, leafOf]

/-- Access from ring 3 takes the user bit on all four levels. -/
theorem rights_user {σ : Paging} {v : ℕ} (h : σ.userAccessible P v = true) :
    (σ.rights P v).user = true := by
  rw [rights, grants, List.all_eq_true]
  intro x hx
  exact (Bool.and_eq_true_iff.mp (userAccessible_iff.mp h x hx)).2

theorem grants_of_forall {σ : Paging} {l : List (List Index × Index)} {r : Rights} (hl : l ≠ [])
    (h : ∀ x ∈ l, entryRights (σ.pte P x.1 x.2) = r) : σ.grants P l = r := by
  have hall : ∀ f : Entry → Bool, ∀ b : Bool, (∀ x ∈ l, f (σ.pte P x.1 x.2) = b) →
      (l.all fun x => f (σ.pte P x.1 x.2)) = b := by
    intro f b hb
    cases b with
    | true => exact List.all_eq_true.mpr hb
    | false =>
        obtain ⟨x, l', rfl⟩ := List.exists_cons_of_ne_nil hl
        rw [List.all_cons, hb x (List.mem_cons_self ..), Bool.false_and]
  simp only [grants, Rights.ext_iff]
  exact ⟨hall _ _ fun x hx => congrArg Rights.user (h x hx),
    hall _ _ fun x hx => congrArg Rights.writable (h x hx),
    hall (fun e => !isNoExec e) _ fun x hx => congrArg Rights.executable (h x hx)⟩

/-! ## `set_page_permission` -/

@[simp] theorem entryRights_setFlags (isOs : Bool) (e : Entry) :
    entryRights (setFlags isOs e) = ⟨isOs, true, true⟩ := by
  rw [entryRights, isUser_setFlags, setFlags_eq, isWritable_eq, isNoExec_eq, BitVec.getLsbD_or,
    BitVec.getLsbD_or, BitVec.getLsbD_and, BitVec.getLsbD_and]
  cases isOs <;>
    simp [addressMask, mapFlags, directoryDefaults, readWriteBit, presentBit, userAccessBit]

@[simp] theorem isWritable_or_noExec (e : Entry) : isWritable (e ||| noExecBit) = isWritable e := by
  rw [isWritable_eq, isWritable_eq, BitVec.getLsbD_or]
  simp [noExecBit]

@[simp] theorem isWritable_and_not_readWrite (e : Entry) :
    isWritable (e &&& ~~~readWriteBit) = false := by
  rw [isWritable_eq, BitVec.getLsbD_and]
  simp [readWriteBit]

@[simp] theorem isNoExec_and_not_readWrite (e : Entry) :
    isNoExec (e &&& ~~~readWriteBit) = isNoExec e := by
  have hz : ~~~readWriteBit &&& noExecBit = noExecBit := by decide
  rw [isNoExec, BitVec.and_assoc, hz, isNoExec]

@[simp] theorem entryRights_leafFlags (isOs w x : Bool) (e : Entry) :
    entryRights (leafFlags isOs w x e) = ⟨isOs, w, x⟩ := by
  have hset := entryRights_setFlags isOs e
  simp only [entryRights, Rights.mk.injEq] at hset
  rw [entryRights, isUser_leafFlags]
  cases w <;> cases x <;> simp [leafFlags, hset]

theorem PermStep.grants_dirs {σ σ' : Paging} {v : ℕ} {isOs w x : Bool}
    (s : PermStep P σ σ' v isOs w x) : σ'.grants P (dirsOf v) = ⟨isOs, true, true⟩ :=
  grants_of_forall (by simp [dirsOf]) fun y hy => by rw [s.dirs y hy, entryRights_setFlags]

/-- The page gets the rights it is given. -/
theorem PermStep.rights_eq {σ σ' : Paging} {v : ℕ} {isOs w x : Bool}
    (s : PermStep P σ σ' v isOs w x) : σ'.rights P v = ⟨isOs, w, x⟩ := by
  rw [Paging.rights_eq, s.grants_dirs, s.leaf, entryRights_leafFlags]
  simp [Rights.meet]

/-! ## Pages that translate -/

/-- What translates is mapped on all four levels. -/
theorem mapped_of_translate {σ : Paging} {v a : ℕ} (h : σ.translate P v = some a) :
    Mapped P σ v := by
  have hleaf := present_of_translate h
  -- A table that is absent leaves everything below it absent.
  have above : ∀ (p : List Index) (i j : Index), isPresent (σ.pte P (p ++ [i]) j) = true →
      isPresent (σ.pte P p i) = true := by
    intro p i j hj
    by_contra hc
    rw [pte_below_absent (by simpa using hc)] at hj
    exact absurd hj (by decide)
  have d₂ := above [pt4Index v, pt3Index v] (pt2Index v) _ hleaf
  have d₃ := above [pt4Index v] (pt3Index v) _ d₂
  have d₄ := above [] (pt4Index v) _ d₃
  refine ⟨fun x hx => ?_, hleaf⟩
  simp only [dirsOf, List.mem_cons, List.not_mem_nil, or_false] at hx
  rcases hx with rfl | rfl | rfl
  · exact d₄
  · exact d₃
  · exact d₂

end Paging
end BootableKernel
