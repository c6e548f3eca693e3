import BootableKernel.Memory.PageTables

/-!
# Page permissions

`set_page_permission` rewrites the four entries of a page that is already mapped. It
keeps the frames and sets the user bit on all four levels, so a page of the operating
system opens the directories above it to ring 3, and a page of the kernel closes them.
-/

namespace BootableKernel

namespace Paging
variable {P : Platform}

/-! ## Flags -/

theorem setFlags_eq (isOs : Bool) (e : Entry) :
    setFlags isOs e = (e &&& addressMask) ||| mapFlags (!isOs) := by
  cases isOs <;> simp [setFlags, mapFlags, BitVec.or_assoc]

@[simp] theorem isPresent_setFlags (isOs : Bool) (e : Entry) :
    isPresent (setFlags isOs e) = true := by
  rw [setFlags_eq, isPresent_or_flags]

@[simp] theorem frameOf_setFlags (isOs : Bool) (e : Entry) :
    frameOf (setFlags isOs e) = frameOf e := by
  rw [setFlags_eq, frameOf_or_flags, frameOf, frameOf, BitVec.and_assoc, BitVec.and_self]

@[simp] theorem isUser_setFlags (isOs : Bool) (e : Entry) : isUser (setFlags isOs e) = isOs := by
  rw [setFlags_eq, isUser_eq, BitVec.getLsbD_or, BitVec.getLsbD_and]
  cases isOs <;>
    simp [addressMask, mapFlags, directoryDefaults, readWriteBit, presentBit, userAccessBit]

@[simp] theorem frameOf_and_not_readWrite (e : Entry) :
    frameOf (e &&& ~~~readWriteBit) = frameOf e := by
  have hz : ~~~readWriteBit &&& addressMask = addressMask := by decide
  rw [frameOf, BitVec.and_assoc, hz, frameOf]

@[simp] theorem isUser_and_not_readWrite (e : Entry) :
    isUser (e &&& ~~~readWriteBit) = isUser e := by
  have hz : ~~~readWriteBit &&& userAccessBit = userAccessBit := by decide
  rw [isUser, BitVec.and_assoc, hz, isUser]

@[simp] theorem isPresent_and_not_readWrite (e : Entry) :
    isPresent (e &&& ~~~readWriteBit) = isPresent e := by
  have hz : ~~~readWriteBit &&& presentBit = presentBit := by decide
  rw [isPresent, BitVec.and_assoc, hz, isPresent]

@[simp] theorem isPresent_leafFlags (isOs w x : Bool) (e : Entry) :
    isPresent (leafFlags isOs w x e) = true := by
  cases w <;> cases x <;> simp [leafFlags]

@[simp] theorem isUser_leafFlags (isOs w x : Bool) (e : Entry) :
    isUser (leafFlags isOs w x e) = isOs := by
  cases w <;> cases x <;> simp [leafFlags]

@[simp] theorem frameOf_leafFlags (isOs w x : Bool) (e : Entry) :
    frameOf (leafFlags isOs w x e) = frameOf e := by
  cases w <;> cases x <;> simp [leafFlags]

/-! ## The four levels -/

/-- All four entries of the page of `v` are present. -/
structure Mapped (P : Platform) (σ : Paging) (v : ℕ) : Prop where
  dirs : ∀ x ∈ dirsOf v, isPresent (σ.pte P x.1 x.2) = true
  leaf : isPresent (σ.leaf P v) = true

/-- What `set_page_permission` does to the view of the tables. -/
structure PermStep (P : Platform) (σ σ' : Paging) (v : ℕ) (isOs w x : Bool) : Prop where
  wf : WellFormed P σ'
  view : ∀ y : List Index × Index, y.1.length ≤ 3 → y ∉ dirsOf v → y ≠ leafOf v →
    σ'.pte P y.1 y.2 = σ.pte P y.1 y.2
  dirs : ∀ y ∈ dirsOf v, σ'.pte P y.1 y.2 = setFlags isOs (σ.pte P y.1 y.2)
  leaf : σ'.leaf P v = leafFlags isOs w x (σ.leaf P v)
  bitmap_eq : σ'.bitmap = σ.bitmap
  obtained_eq : σ'.obtained = σ.obtained

/-- Rewriting keeps an entry present and keeps the frame it designates. -/
def KeepsFrame (g : Entry → Entry) : Prop :=
  ∀ e, isPresent e = true → isPresent (g e) = true ∧ frameOf (g e) = frameOf e

/-- What rewriting the entry at path `p` and index `i` does; `t` is the next table. -/
structure Level (P : Platform) (σ σ' : Paging) (p : List Index) (i : Index) (g : Entry → Entry)
    (t : ℕ) : Prop where
  wf : WellFormed P σ'
  walk : Radix.walk target σ'.mem P.pt4 (p ++ [i]) = some t
  view : ∀ q j, q.length ≤ 3 →
    σ'.pte P q j = if q = p ∧ j = i then g (σ.pte P p i) else σ.pte P q j
  bitmap_eq : σ'.bitmap = σ.bitmap
  obtained_eq : σ'.obtained = σ.obtained

/-- One level: the entry is there when it is read, and the next table is found where it
was. -/
theorem exists_level {σ : Paging} (h : WellFormed P σ) {p : List Index} (hp : p.length ≤ 3) {t : ℕ}
    (hw : Radix.walk target σ.mem P.pt4 p = some t) {i : Index} {g : Entry → Entry}
    (hpres : isPresent (σ.pte P p i) = true) (hg : KeepsFrame g) :
    ∃ σ' t', (isPresent (σ.mem t i) = true ∧ σ' = σ.store t i (g (σ.mem t i)) ∧
      t' = frameOf (σ'.mem t i)) ∧ Level P σ σ' p i g t' := by
  obtain ⟨hpres', hframe⟩ := hg _ hpres
  have hpte : σ.pte P p i = σ.mem t i := pte_of_walk hw i
  have hsame : target (g (σ.pte P p i)) = target (σ.mem t i) := by
    rw [target_of_present hpres', hframe, ← target_of_present hpres, hpte]
  obtain ⟨hwf, hwalk, hview⟩ := store_rewrite h hp hw hsame
  rw [hpte] at hwf hwalk hview
  have hnew := hview p i hp
  rw [if_pos ⟨rfl, rfl⟩] at hnew
  rw [hpte] at hpres hpres'
  have hmem : (σ.store t i (g (σ.mem t i))).mem t i = g (σ.mem t i) :=
    (pte_of_walk ((hwalk p).trans hw) i).symm.trans hnew
  refine ⟨_, _, ⟨hpres, rfl, rfl⟩, hwf, ?_, hpte ▸ hview, rfl, rfl⟩
  rw [walk_snoc, hnew, target_of_present hpres', hmem]

/-- What a rewriting of the four entries of `v` does: `g` is applied to the directory
entries and `gl` to the leaf. -/
structure Rewrites (P : Platform) (σ σ' : Paging) (v : ℕ) (g gl : Entry → Entry) : Prop where
  wf : WellFormed P σ'
  view : ∀ y : List Index × Index, y.1.length ≤ 3 → y ∉ dirsOf v → y ≠ leafOf v →
    σ'.pte P y.1 y.2 = σ.pte P y.1 y.2
  dirs : ∀ y ∈ dirsOf v, σ'.pte P y.1 y.2 = g (σ.pte P y.1 y.2)
  leaf : σ'.leaf P v = gl (σ.leaf P v)
  bitmap_eq : σ'.bitmap = σ.bitmap
  obtained_eq : σ'.obtained = σ.obtained

/-- **Rewriting the entries of a mapped page, level by level.** The tables found on the
way are those of the page, its entries are there when they are read, and the outcome is as
described by `Rewrites`. -/
theorem rewrite_stages {σ : Paging} (h : WellFormed P σ) {v : ℕ} (hm : Mapped P σ v)
    {g gl : Entry → Entry} (hg : KeepsFrame g) (hgl : KeepsFrame gl) :
    ∃ σ₁ σ₂ σ₃ pt3 pt2 pageTable,
      (isPresent (σ.mem P.pt4 (pt4Index v)) = true ∧
        σ₁ = σ.store P.pt4 (pt4Index v) (g (σ.mem P.pt4 (pt4Index v))) ∧
        pt3 = frameOf (σ₁.mem P.pt4 (pt4Index v))) ∧
      (isPresent (σ₁.mem pt3 (pt3Index v)) = true ∧
        σ₂ = σ₁.store pt3 (pt3Index v) (g (σ₁.mem pt3 (pt3Index v))) ∧
        pt2 = frameOf (σ₂.mem pt3 (pt3Index v))) ∧
      (isPresent (σ₂.mem pt2 (pt2Index v)) = true ∧
        σ₃ = σ₂.store pt2 (pt2Index v) (g (σ₂.mem pt2 (pt2Index v))) ∧
        pageTable = frameOf (σ₃.mem pt2 (pt2Index v))) ∧
      σ₃.mem pageTable (pageIndex v) = σ.leaf P v ∧
      Rewrites P σ
        (σ₃.store pageTable (pageIndex v) (gl (σ₃.mem pageTable (pageIndex v)))) v g gl := by
  have hd := hm.dirs
  simp only [dirsOf, List.forall_mem_cons, List.not_mem_nil, false_implies, implies_true,
    and_true] at hd
  obtain ⟨d₄, d₃, d₂⟩ := hd
  have d₁ := hm.leaf
  obtain ⟨σ₁, pt3, s₁, l₁⟩ := exists_level h (p := []) (by simp) rfl d₄ hg
  have w₁ : Radix.walk target σ₁.mem P.pt4 [pt4Index v] = some pt3 := l₁.walk
  -- The entries below a level are as they were.
  have e₃ : σ₁.pte P [pt4Index v] (pt3Index v) = σ.pte P [pt4Index v] (pt3Index v) := by
    rw [l₁.view _ _ (by simp), if_neg (by simp)]
  rw [← e₃] at d₃
  obtain ⟨σ₂, pt2, s₂, l₂⟩ := exists_level l₁.wf (by simp) w₁ d₃ hg
  have w₂ : Radix.walk target σ₂.mem P.pt4 [pt4Index v, pt3Index v] = some pt2 := l₂.walk
  have e₂ : σ₂.pte P [pt4Index v, pt3Index v] (pt2Index v) =
      σ.pte P [pt4Index v, pt3Index v] (pt2Index v) := by
    rw [l₂.view _ _ (by simp), if_neg (by simp), l₁.view _ _ (by simp), if_neg (by simp)]
  rw [← e₂] at d₂
  obtain ⟨σ₃, pageTable, s₃, l₃⟩ := exists_level l₂.wf (by simp) w₂ d₂ hg
  have w₃ : Radix.walk target σ₃.mem P.pt4 (tablePath v) = some pageTable := l₃.walk
  have e₁ : σ₃.pte P (tablePath v) (pageIndex v) = σ.leaf P v := by
    rw [l₃.view _ _ (by simp [tablePath]), if_neg (by simp [tablePath]),
      l₂.view _ _ (by simp [tablePath]), if_neg (by simp [tablePath]),
      l₁.view _ _ (by simp [tablePath]), if_neg (by simp [tablePath])]
    rfl
  rw [← e₁] at d₁
  obtain ⟨σ₄, t, s₄, l₄⟩ := exists_level l₃.wf (by simp [tablePath]) w₃ d₁ hgl
  have hleaf : σ₃.mem pageTable (pageIndex v) = σ.leaf P v := (pte_of_walk w₃ _).symm.trans e₁
  have view₂ := l₂.view
  have view₃ := l₃.view
  have view₄ := l₄.view
  rw [e₃] at view₂
  rw [e₂] at view₃
  rw [e₁] at view₄
  refine ⟨σ₁, σ₂, σ₃, pt3, pt2, pageTable, s₁, s₂, s₃, hleaf, ?_⟩
  rw [← s₄.2.1]
  refine ⟨l₄.wf, ?_, ?_, ?_, ?_, ?_⟩
  · rintro ⟨q, j⟩ hq hdirs hne
    simp only [dirsOf, List.mem_cons, Prod.mk.injEq, List.not_mem_nil, or_false, not_or] at hdirs
    simp only [leafOf, ne_eq, Prod.mk.injEq] at hne
    rw [view₄ q j hq, if_neg hne, view₃ q j hq, if_neg hdirs.2.2, view₂ q j hq, if_neg hdirs.2.1,
      l₁.view q j hq, if_neg hdirs.1]
  · intro y hy
    simp only [dirsOf, List.mem_cons, List.not_mem_nil, or_false] at hy
    rcases hy with rfl | rfl | rfl
    · rw [view₄ _ _ (by simp), if_neg (by simp [tablePath]), view₃ _ _ (by simp), if_neg (by simp),
        view₂ _ _ (by simp), if_neg (by simp), l₁.view _ _ (by simp), if_pos ⟨rfl, rfl⟩]
    · rw [view₄ _ _ (by simp), if_neg (by simp [tablePath]), view₃ _ _ (by simp), if_neg (by simp),
        view₂ _ _ (by simp), if_pos ⟨rfl, rfl⟩]
    · rw [view₄ _ _ (by simp), if_neg (by simp [tablePath]), view₃ _ _ (by simp), if_pos ⟨rfl, rfl⟩]
  · rw [Paging.leaf, view₄ _ _ (by simp [tablePath]), if_pos ⟨rfl, rfl⟩]
  · rw [l₄.bitmap_eq, l₃.bitmap_eq, l₂.bitmap_eq, l₁.bitmap_eq]
  · rw [l₄.obtained_eq, l₃.obtained_eq, l₂.obtained_eq, l₁.obtained_eq]

theorem keepsFrame_setFlags (isOs : Bool) : KeepsFrame (setFlags isOs) :=
  fun e _ => ⟨isPresent_setFlags isOs e, frameOf_setFlags isOs e⟩

theorem keepsFrame_leafFlags (isOs w x : Bool) : KeepsFrame (leafFlags isOs w x) :=
  fun e _ => ⟨isPresent_leafFlags isOs w x e, frameOf_leafFlags isOs w x e⟩

/-- **`set_page_permission` on a mapped page.** -/
theorem setPagePermission_permStep {σ : Paging} (h : WellFormed P σ) {v : ℕ} (hm : Mapped P σ v)
    (isOs w x : Bool) : PermStep P σ (σ.setPagePermission P v isOs w x) v isOs w x := by
  obtain ⟨σ₁, σ₂, σ₃, pt3, pt2, pageTable, ⟨-, rfl, rfl⟩, ⟨-, rfl, rfl⟩, ⟨-, rfl, rfl⟩, -, s⟩ :=
    rewrite_stages h hm (keepsFrame_setFlags isOs) (keepsFrame_leafFlags isOs w x)
  exact ⟨⟨s.wf.tree, s.wf.fresh⟩, s.view, s.dirs, s.leaf, s.bitmap_eq, s.obtained_eq⟩

end Paging
end BootableKernel
