import BootableKernel.Memory.Rights
import Mathlib.Data.List.TakeDrop

/-!
# The tables between the stores of a call

`set_page_permission` and `vmm_map_memory` change the entries of a page in several stores,
and the processor may walk the tables after each of them. `setPagePermissionStores` and
`vmmMapMemoryStores` list the tables in the order in which they exist: as the call finds
them, and after each store, down to the bytes that `kmemset` clears in a new table.

The code follows the frame addresses of entries, present or not. Rewriting an entry keeps
its frame address, so the four entries of a page are found at the same places throughout,
and what the processor would load is a function of these four entries.
-/

namespace BootableKernel

/-- What several entries grant together. -/
def together (l : List Rights) : Rights where
  user := l.all Rights.user
  writable := l.all Rights.writable
  executable := l.all Rights.executable

theorem all_eq_of_mem {α : Type*} {f : α → Bool} {b : Bool} {l : List α} (hmem : ∃ a ∈ l, f a = b)
    (hall : b = true → ∀ a ∈ l, f a = true) : l.all f = b := by
  cases b with
  | true => exact List.all_eq_true.mpr (hall rfl)
  | false =>
      obtain ⟨a, ha, hf⟩ := hmem
      exact List.all_eq_false.mpr ⟨a, ha, by simp [hf]⟩

/-- The entry that grants least decides. -/
theorem together_eq {l : List Rights} {r : Rights} (hmem : r ∈ l) (hle : ∀ s ∈ l, s.meet r = r) :
    together l = r := by
  rw [Rights.ext_iff]
  refine ⟨all_eq_of_mem ⟨r, hmem, rfl⟩ fun hr s hs => ?_,
    all_eq_of_mem ⟨r, hmem, rfl⟩ fun hr s hs => ?_, all_eq_of_mem ⟨r, hmem, rfl⟩ fun hr s hs => ?_⟩
  · have := congrArg Rights.user (hle s hs)
    simpa [Rights.meet, hr] using this
  · have := congrArg Rights.writable (hle s hs)
    simpa [Rights.meet, hr] using this
  · have := congrArg Rights.executable (hle s hs)
    simpa [Rights.meet, hr] using this

theorem all_ite {α : Type*} {f : α → Bool} {b : Bool} {l : List α} (h : l.all f = b)
    (s : α → Prop) [DecidablePred s] : (l.all fun a => if s a then b else f a) = b := by
  cases b with
  | true =>
      rw [List.all_eq_true] at h ⊢
      intro a ha
      split
      · rfl
      · exact h a ha
  | false =>
      rw [List.all_eq_false] at h ⊢
      obtain ⟨a, ha, hf⟩ := h
      refine ⟨a, ha, ?_⟩
      split
      · simp
      · exact hf

/-- Entries that come to `r` still do when some of them are made `r`. -/
theorem together_ite {α : Type*} {l : List α} {f : α → Rights} {r : Rights}
    (h : together (l.map f) = r) (p : α → Prop) [DecidablePred p] :
    together (l.map fun a => if p a then r else f a) = r := by
  have hfield : ∀ g : Rights → Bool, (l.all fun a => g (f a)) = g r →
      (l.all fun a => g (if p a then r else f a)) = g r := by
    intro g hg
    simp only [apply_ite g]
    exact all_ite hg p
  simp only [Rights.ext_iff, together, List.all_map, Function.comp_def] at h ⊢
  exact ⟨hfield _ h.1, hfield _ h.2.1, hfield _ h.2.2⟩

namespace Paging
variable (P : Platform)

/-! ## `set_page_permission` -/

/-- The tables as `set_page_permission` finds them, and after each of its stores. -/
def setPagePermissionStores (σ : Paging) (addr : ℕ) (isOs isWritable isExecutable : Bool) :
    List Paging :=
  let i4 := pt4Index addr
  let i3 := pt3Index addr
  let i2 := pt2Index addr
  let i1 := pageIndex addr
  let σ₁ := σ.store P.pt4 i4 (setFlags isOs (σ.mem P.pt4 i4))
  let pt3 := frameOf (σ₁.mem P.pt4 i4)
  let σ₂ := σ₁.store pt3 i3 (setFlags isOs (σ₁.mem pt3 i3))
  let pt2 := frameOf (σ₂.mem pt3 i3)
  let σ₃ := σ₂.store pt2 i2 (setFlags isOs (σ₂.mem pt2 i2))
  let pageTable := frameOf (σ₃.mem pt2 i2)
  let σ₄ := σ₃.store pageTable i1 (setFlags isOs (σ₃.mem pageTable i1))
  let σ₅ := if isExecutable then σ₄ else
    σ₄.store pageTable i1 (σ₄.mem pageTable i1 ||| noExecBit)
  let σ₆ := if isWritable then σ₅ else
    σ₅.store pageTable i1 (σ₅.mem pageTable i1 &&& ~~~readWriteBit)
  [σ, σ₁, σ₂, σ₃, σ₄, σ₅, σ₆]

@[simp] theorem store_store (σ : Paging) (t : ℕ) (i : Index) (e e' : Entry) :
    (σ.store t i e).store t i e' = σ.store t i e' := by
  have hmem : Radix.setEntry (Radix.setEntry σ.mem t i e) t i e' = Radix.setEntry σ.mem t i e' := by
    funext t' i'
    simp only [Radix.setEntry]
    split <;> rfl
  rw [store, store, hmem]
  rfl

/-- The last store leaves the tables of the call. -/
theorem setPagePermissionStores_last (σ : Paging) (addr : ℕ) (isOs w x : Bool) :
    ∃ τ l, σ.setPagePermissionStores P addr isOs w x = l ++ [τ] ∧
      τ.mem = (σ.setPagePermission P addr isOs w x).mem := by
  refine ⟨_, [_, _, _, _, _, _], rfl, ?_⟩
  cases w <;> cases x <;>
    simp only [setPagePermission, leafFlags, mem_flushTlb, store_store, mem_store_self,
      Bool.false_eq_true, if_true, if_false]

/-! ## `vmm_map_memory` -/

/-- An entry whose lowest `n` bits are cleared. -/
def clearLow (n : ℕ) (e : Entry) : Entry := e >>> n <<< n

/-- The tables when `allocate_page_table` has cleared the first `n` bytes of its frame. -/
def clearing (σ : Paging) (n : ℕ) : Paging :=
  let r := σ.allocatePageTable P
  { r.2 with mem := Function.update σ.mem r.1 fun j => clearLow (8 * (n - 8 * j)) (σ.mem r.1 j) }

theorem clearing_pageSize (σ : Paging) : σ.clearing P pageSize = (σ.allocatePageTable P).2 := by
  -- The result is named, so that nothing evaluates the allocator's scan.
  obtain ⟨r, hr⟩ : ∃ r, PMM.allocatePageTable P.reservedStart σ.bitmap = r := ⟨_, rfl⟩
  simp only [clearing, allocatePageTable, hr]
  congr 2
  funext j
  have hj : 64 ≤ 8 * (pageSize - 8 * (j : ℕ)) := by
    have := j.isLt
    rw [pageSize]
    omega
  exact BitVec.shiftLeft_eq_zero hj

/-- The tables after each store of `kmemset`. -/
def kmemsetStores (σ : Paging) : List Paging :=
  (List.range pageSize).map fun i => σ.clearing P (i + 1)

/-- The tables after each store of a directory level of `vmm_map_memory`. -/
def ensureTableStores (σ : Paging) (table : ℕ) (i : Index) (flags : Entry) : List Paging :=
  if isPresent (σ.mem table i) then [σ.ensureTable P table i flags]
  else σ.kmemsetStores P ++ [σ.ensureTable P table i flags]

/-- The tables as `vmm_map_memory` finds them, and after each of its stores. -/
def vmmMapMemoryStores (σ : Paging) (physical virtual : ℕ) (flags : Entry) : List Paging :=
  let σ₁ := σ.ensureTable P P.pt4 (pt4Index virtual) flags
  let pt3 := frameOf (σ₁.mem P.pt4 (pt4Index virtual))
  let σ₂ := σ₁.ensureTable P pt3 (pt3Index virtual) flags
  let pt2 := frameOf (σ₂.mem pt3 (pt3Index virtual))
  let σ₃ := σ₂.ensureTable P pt2 (pt2Index virtual) flags
  let pageTable := frameOf (σ₃.mem pt2 (pt2Index virtual))
  [σ] ++ σ.ensureTableStores P P.pt4 (pt4Index virtual) flags ++
    σ₁.ensureTableStores P pt3 (pt3Index virtual) flags ++
    σ₂.ensureTableStores P pt2 (pt2Index virtual) flags ++
    [σ₃.mapLeaf P pageTable physical virtual flags]

/-! ## The four entries of a page -/

/-- The places of the four entries that the code visits for `v`. It follows the frame address
of an entry whether the entry is present or not. -/
def walkOf (σ : Paging) (v : ℕ) : List (ℕ × Index) :=
  let pt3 := frameOf (σ.mem P.pt4 (pt4Index v))
  let pt2 := frameOf (σ.mem pt3 (pt3Index v))
  let pageTable := frameOf (σ.mem pt2 (pt2Index v))
  [(P.pt4, pt4Index v), (pt3, pt3Index v), (pt2, pt2Index v), (pageTable, pageIndex v)]

/-- The last of these places, that of the leaf. -/
def leafPlace (σ : Paging) (v : ℕ) : ℕ × Index :=
  let pt3 := frameOf (σ.mem P.pt4 (pt4Index v))
  let pt2 := frameOf (σ.mem pt3 (pt3Index v))
  (frameOf (σ.mem pt2 (pt2Index v)), pageIndex v)

variable {P}

/-- The entry at a place. -/
def entry (σ : Paging) (x : ℕ × Index) : Entry := σ.mem x.1 x.2

theorem leafPlace_mem (σ : Paging) (v : ℕ) : σ.leafPlace P v ∈ σ.walkOf P v := by
  simp [walkOf, leafPlace]

/-- What the processor would load for the page of `v`. -/
def lookup (P : Platform) (σ : Paging) (v : ℕ) : Option (ℕ × Rights) :=
  (σ.translate P v).map fun a => (a, σ.rights P v)

theorem lookup_eq_none {σ : Paging} {v : ℕ} : σ.lookup P v = none ↔ σ.translate P v = none :=
  Option.map_eq_none_iff

/-- The table below a present entry. -/
theorem walk_of_present {σ : Paging} {p : List Index} {t : ℕ} {i : Index}
    (hw : Radix.walk target σ.mem P.pt4 p = some t) (hp : isPresent (σ.mem t i) = true) :
    Radix.walk target σ.mem P.pt4 (p ++ [i]) = some (frameOf (σ.mem t i)) := by
  rw [walk_snoc, pte_of_walk hw, target_of_present hp]

/-- When the four entries are present, they are those of the page. -/
theorem leaf_rights_of_present {σ : Paging} {v : ℕ}
    (h : ∀ x ∈ σ.walkOf P v, isPresent (σ.entry x) = true) :
    σ.leaf P v = σ.entry (σ.leafPlace P v) ∧
      σ.rights P v = together ((σ.walkOf P v).map fun x => entryRights (σ.entry x)) := by
  simp only [walkOf, List.forall_mem_cons, entry, List.not_mem_nil, false_implies, implies_true,
    and_true] at h
  obtain ⟨h₄, h₃, h₂, -⟩ := h
  have hw₀ : Radix.walk target σ.mem P.pt4 [] = some P.pt4 := rfl
  have hw₁ := walk_of_present hw₀ h₄
  have hw₂ := walk_of_present hw₁ h₃
  have hw₃ := walk_of_present hw₂ h₂
  have e₄ := pte_of_walk hw₀ (pt4Index v)
  have e₃ := pte_of_walk hw₁ (pt3Index v)
  have e₂ := pte_of_walk hw₂ (pt2Index v)
  have e₁ := pte_of_walk hw₃ (pageIndex v)
  simp only [List.nil_append, List.cons_append] at e₃ e₂ e₁
  refine ⟨e₁, ?_⟩
  simp only [rights, grants, entriesOf, dirsOf, leafOf, tablePath, together, walkOf, entryRights,
    entry, List.cons_append, List.nil_append, List.map_cons, List.map_nil, List.all_cons,
    List.all_nil, e₄, e₃, e₂, e₁]

theorem rights_of_present {σ : Paging} {v : ℕ}
    (h : ∀ x ∈ σ.walkOf P v, isPresent (σ.entry x) = true) :
    σ.rights P v = together ((σ.walkOf P v).map fun x => entryRights (σ.entry x)) :=
  (leaf_rights_of_present h).2

theorem lookup_of_present {σ : Paging} {v : ℕ}
    (h : ∀ x ∈ σ.walkOf P v, isPresent (σ.entry x) = true) :
    σ.lookup P v = some (frameOf (σ.entry (σ.leafPlace P v)),
      together ((σ.walkOf P v).map fun x => entryRights (σ.entry x))) := by
  obtain ⟨hleaf, hrights⟩ := leaf_rights_of_present h
  rw [lookup, translate, hleaf, target_of_present (h _ (σ.leafPlace_mem v)), hrights]
  rfl

/-- A page that translates has its four entries at these places. -/
theorem present_of_mapped {σ : Paging} {v : ℕ} (h : Mapped P σ v) :
    ∀ x ∈ σ.walkOf P v, isPresent (σ.entry x) = true := by
  have hd := h.dirs
  simp only [dirsOf, List.forall_mem_cons, List.not_mem_nil, false_implies, implies_true,
    and_true] at hd
  obtain ⟨d₄, d₃, d₂⟩ := hd
  have d₁ := h.leaf
  have hw₀ : Radix.walk target σ.mem P.pt4 [] = some P.pt4 := rfl
  rw [pte_of_walk hw₀] at d₄
  have hw₁ := walk_of_present hw₀ d₄
  rw [List.nil_append] at hw₁
  rw [pte_of_walk hw₁] at d₃
  have hw₂ := walk_of_present hw₁ d₃
  rw [List.singleton_append] at hw₂
  rw [pte_of_walk hw₂] at d₂
  have hw₃ := walk_of_present hw₂ d₂
  rw [show σ.leaf P v = _ from pte_of_walk hw₃ (pageIndex v)] at d₁
  simp only [walkOf, List.forall_mem_cons, entry, List.not_mem_nil, false_implies, implies_true,
    and_true]
  exact ⟨d₄, d₃, d₂, d₁⟩

/-- What the processor would load, from the four entries. -/
theorem lookup_eq (σ : Paging) (v : ℕ) :
    σ.lookup P v = if ∀ x ∈ σ.walkOf P v, isPresent (σ.entry x) = true then
      some (frameOf (σ.entry (σ.leafPlace P v)),
        together ((σ.walkOf P v).map fun x => entryRights (σ.entry x)))
    else none := by
  split
  next h => exact lookup_of_present h
  next h =>
    rw [lookup_eq_none]
    by_contra hc
    obtain ⟨a, ha⟩ := Option.ne_none_iff_exists'.mp hc
    exact h (present_of_mapped (mapped_of_translate ha))

/-! ## Rewriting entries -/

/-- Rewrite the entry at a place. -/
def rewrite (g : Entry → Entry) (σ : Paging) (x : ℕ × Index) : Paging :=
  σ.store x.1 x.2 (g (σ.entry x))

/-- Rewrite the entries at several places, one after the other. -/
def rewriteAll (g : Entry → Entry) (σ : Paging) (l : List (ℕ × Index)) : Paging :=
  l.foldl (rewrite g) σ

theorem entry_rewrite (g : Entry → Entry) (σ : Paging) (x y : ℕ × Index) :
    (σ.rewrite g x).entry y = if y = x then g (σ.entry x) else σ.entry y := by
  simp only [entry, rewrite, store, Radix.setEntry, Prod.ext_iff]

section
variable {α : Type*} {f : Entry → α} {g : Entry → Entry}

/-- A part of the entries that rewriting keeps. -/
theorem keeps_rewriteAll (hg : ∀ e, f (g e) = f e) (σ : Paging) (l : List (ℕ × Index))
    (y : ℕ × Index) : f ((σ.rewriteAll g l).entry y) = f (σ.entry y) := by
  induction l generalizing σ with
  | nil => rfl
  | cons x l ih =>
      rw [rewriteAll, List.foldl_cons, ← rewriteAll, ih, entry_rewrite]
      split
      next h => rw [hg, h]
      next => rfl

/-- A part of the entries that rewriting sets. -/
theorem sets_rewriteAll {c : α} (hg : ∀ e, f (g e) = c) (σ : Paging) (l : List (ℕ × Index))
    (y : ℕ × Index) : f ((σ.rewriteAll g l).entry y) = if y ∈ l then c else f (σ.entry y) := by
  induction l generalizing σ with
  | nil => rfl
  | cons x l ih =>
      rw [rewriteAll, List.foldl_cons, ← rewriteAll, ih, entry_rewrite]
      by_cases hy : y = x
      · simp [hy, hg]
      · simp [hy]

/-- A property of an entry that rewriting does not undo. -/
theorem mono_rewriteAll {p : Entry → Prop} (hg : ∀ e, p e → p (g e)) (σ : Paging)
    (l : List (ℕ × Index)) {y : ℕ × Index} (hy : p (σ.entry y)) :
    p ((σ.rewriteAll g l).entry y) := by
  induction l generalizing σ with
  | nil => exact hy
  | cons x l ih =>
      rw [rewriteAll, List.foldl_cons, ← rewriteAll]
      refine ih _ ?_
      rw [entry_rewrite]
      split
      next h => exact hg _ (h ▸ hy)
      next => exact hy

end

/-- Entries with the same frame addresses lead to the same places. -/
theorem walkOf_congr {σ τ : Paging} (h : ∀ x, frameOf (τ.entry x) = frameOf (σ.entry x)) (v : ℕ) :
    τ.walkOf P v = σ.walkOf P v ∧ τ.leafPlace P v = σ.leafPlace P v := by
  have hmem : ∀ t i, frameOf (τ.mem t i) = frameOf (σ.mem t i) := fun t i => h (t, i)
  simp only [walkOf, leafPlace, hmem, and_self]

end Paging
end BootableKernel
