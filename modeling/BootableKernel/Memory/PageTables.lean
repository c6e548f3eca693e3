import BootableKernel.Memory.Paging
import Mathlib.Algebra.Order.BigOperators.Group.Finset
import Mathlib.Data.Finset.Card

/-!
# Page tables as a map from paths to entries

In a well-formed state the tables form a tree and no free frame is one of them. Then
the processor's view of the tables, `Paging.pte`, changes at one point for each entry
that is written: creating a table is invisible except for the entry that designates
it, because a table that is missing and a table full of zeros look the same.

`DirStep` and `LeafStep` state what one level of `vmm_map_memory` does to the view, to
the bitmap and to the record of obtained frames; `vmmMapMemory_steps` chains the four
levels.
-/

namespace BootableKernel

/-! ## Bits of entries -/

/-- The flags `vmm_mmap` maps with. -/
def mapFlags (isKernel : Bool) : Entry :=
  directoryDefaults ||| (if isKernel then 0 else userAccessBit)

/-- The `flags` of `vmm_map_memory`: present, and neither an address bit nor the page-size
bit. -/
def FlagWord (flags : Entry) : Prop :=
  isPresent flags = true ∧ flags &&& 0x000ffffffffff080 = 0

theorem flagWord_mapFlags (isKernel : Bool) : FlagWord (mapFlags isKernel) := by
  cases isKernel <;> exact ⟨by decide, by decide⟩

theorem and_bit_ne_zero (e : Entry) (k : ℕ) (hk : k < 64) :
    (e &&& BitVec.twoPow 64 k != 0) = e.getLsbD k := by
  rw [BitVec.and_twoPow]
  by_cases h : e.getLsbD k = true
  · have hne : BitVec.twoPow 64 k ≠ 0#64 := by
      intro hc
      have := congrArg (fun x => BitVec.getLsbD x k) hc
      simp [hk] at this
    simp [h, hne]
  · simp [h]

theorem isPresent_eq (e : Entry) : isPresent e = e.getLsbD 0 := and_bit_ne_zero e 0 (by decide)
theorem isUser_eq (e : Entry) : isUser e = e.getLsbD 2 := and_bit_ne_zero e 2 (by decide)
theorem isNoExec_eq (e : Entry) : isNoExec e = e.getLsbD 63 := and_bit_ne_zero e 63 (by decide)

/-- A mask of `n` bits from bit `k` on cuts a field out of a word. -/
theorem toNat_and_field {w n k : ℕ} (x : BitVec w) {mask : BitVec w}
    (hmask : mask.toNat = (2 ^ n - 1) * 2 ^ k) :
    (x &&& mask).toNat = x.toNat / 2 ^ k % 2 ^ n * 2 ^ k := by
  apply Nat.eq_of_testBit_eq
  intro i
  rw [BitVec.toNat_and, hmask, Nat.testBit_and, Nat.testBit_mul_two_pow, Nat.testBit_mul_two_pow,
    Nat.testBit_mod_two_pow, Nat.testBit_div_two_pow, Nat.testBit_two_pow_sub_one]
  by_cases h : k ≤ i
  · simp only [h, decide_true, Bool.true_and, Nat.sub_add_cancel h]
    rw [Bool.and_comm]
  · simp [h]

/-- An entry holds bits 12 to 39 of its value as a frame address. -/
theorem frameOf_eq (e : Entry) : frameOf e = e.toNat / 2 ^ 12 % 2 ^ 28 * 2 ^ 12 :=
  toNat_and_field e (by decide)

@[simp] theorem isPresent_zero : isPresent 0 = false := by decide

@[simp] theorem target_zero : target 0 = none := by decide

theorem target_of_present {e : Entry} (h : isPresent e = true) : target e = some (frameOf e) := by
  simp [target, h]

theorem target_eq_none {e : Entry} : target e = none ↔ isPresent e = false := by
  cases h : isPresent e <;> simp [target, h]

theorem target_congr {e e' : Entry} (hp : isPresent e = isPresent e')
    (hf : frameOf e = frameOf e') : target e = target e' := by
  cases h : isPresent e' <;> simp [target, hp, hf, h]

theorem FlagWord.isPresent_or {flags : Entry} (hF : FlagWord flags) (e : Entry) :
    isPresent (e ||| flags) = true := by
  rw [isPresent_eq, BitVec.getLsbD_or, ← isPresent_eq flags, hF.1, Bool.or_true]

/-- Flags lie outside the bits an entry keeps for the frame address. -/
theorem FlagWord.frameOf_or {flags : Entry} (hF : FlagWord flags) (e : Entry) :
    frameOf (e ||| flags) = frameOf e := by
  have hmask : addressMask = 0x000ffffffffff080 &&& addressMask := by decide
  have hz : flags &&& addressMask = 0#64 := by
    rw [hmask, ← BitVec.and_assoc, hF.2]
    exact BitVec.zero_and
  rw [frameOf, BitVec.and_or_distrib_right, hz, BitVec.or_zero, frameOf]

@[simp] theorem isPresent_or_flags (e : Entry) (k : Bool) : isPresent (e ||| mapFlags k) = true :=
  (flagWord_mapFlags k).isPresent_or e

@[simp] theorem frameOf_or_flags (e : Entry) (k : Bool) : frameOf (e ||| mapFlags k) = frameOf e :=
  (flagWord_mapFlags k).frameOf_or e

@[simp] theorem frameOf_or_noExec (e : Entry) : frameOf (e ||| noExecBit) = frameOf e := by
  have hz : noExecBit &&& addressMask = 0#64 := by decide
  rw [frameOf, BitVec.and_or_distrib_right, hz, BitVec.or_zero, frameOf]

@[simp] theorem frameOf_and_lowMask (e : Entry) : frameOf (e &&& lowMask) = frameOf e := by
  have hz : lowMask &&& addressMask = addressMask := by decide
  rw [frameOf, BitVec.and_assoc, hz, frameOf]

/-- A page-aligned address below 1 TB is stored unchanged. -/
theorem frameOf_ofNat {a : ℕ} (ha : a % 4096 = 0) (hlt : a < 2 ^ 40) :
    frameOf (BitVec.ofNat 64 a) = a := by
  rw [frameOf_eq, BitVec.toNat_ofNat, Nat.mod_eq_of_lt (by omega)]
  omega

/-- Clearing the low bits and setting flags leaves the user bit of the flags. -/
@[simp] theorem isUser_rewrite (e : Entry) (k : Bool) :
    isUser ((e &&& lowMask) ||| mapFlags k) = !k := by
  rw [isUser_eq, BitVec.getLsbD_or, BitVec.getLsbD_and]
  cases k <;>
    simp [lowMask, mapFlags, directoryDefaults, readWriteBit, presentBit, userAccessBit]

/-- The user bit of a page-aligned address is clear. -/
theorem isUser_ofNat {a : ℕ} (ha : a % 4096 = 0) (k : Bool) :
    isUser (BitVec.ofNat 64 a ||| mapFlags k) = !k := by
  have hbit : (BitVec.ofNat 64 a).getLsbD 2 = false := by
    rw [BitVec.getLsbD_ofNat, Nat.testBit_eq_decide_div_mod_eq]
    simp
    omega
  rw [isUser_eq, BitVec.getLsbD_or, hbit]
  cases k <;> simp [mapFlags, directoryDefaults, readWriteBit, presentBit, userAccessBit]

@[simp] theorem isUser_or_noExec (e : Entry) : isUser (e ||| noExecBit) = isUser e := by
  rw [isUser_eq, isUser_eq, BitVec.getLsbD_or]
  simp [noExecBit]

@[simp] theorem isPresent_or_noExec (e : Entry) : isPresent (e ||| noExecBit) = isPresent e := by
  rw [isPresent_eq, isPresent_eq, BitVec.getLsbD_or]
  simp [noExecBit]

@[simp] theorem isNoExec_or_noExec (e : Entry) : isNoExec (e ||| noExecBit) = true := by
  rw [isNoExec_eq, BitVec.getLsbD_or]
  simp [noExecBit]

/-! ## Well-formed states -/

/-- What `linker.ld` provides for `RESERVED_START`: a positive page boundary, with room
for one bitmap word of frames below 2 MB. -/
structure Platform.Valid (P : Platform) : Prop where
  pos : 0 < P.reservedStart
  aligned : P.reservedStart % 4096 = 0
  low : P.reservedStart + 0x40000 ≤ 0x200000

namespace Paging
variable {P : Platform}

/-- The address of frame `f` of the physical memory manager. -/
abbrev frame (P : Platform) (f : ℕ) : ℕ := PMM.frameAddr P.reservedStart f

/-- The tables form a tree, and no free frame is one of them. -/
structure WellFormed (P : Platform) (σ : Paging) : Prop where
  tree : Radix.Tree target σ.mem P.pt4 3
  fresh : ∀ f < frameCount, PMM.isFree σ.bitmap f = true →
    Radix.Unreached target σ.mem P.pt4 3 (frame P f)

theorem frame_facts (hP : P.Valid) {f : ℕ} (hf : f < frameCount) :
    frame P f % 4096 = 0 ∧ 0 < frame P f ∧ frame P f < 2 ^ 40 := by
  have := hP.pos
  have := hP.aligned
  have := hP.low
  simp only [frame, PMM.frameAddr, pageSize, frameCount, bitmapWords] at *
  omega

theorem frame_injective {f g : ℕ} (h : frame P f = frame P g) : f = g := by
  simp only [frame, PMM.frameAddr, pageSize] at h
  omega

theorem pte_of_walk {σ : Paging} {p : List Index} {t : ℕ}
    (h : Radix.walk target σ.mem P.pt4 p = some t) (i : Index) : σ.pte P p i = σ.mem t i :=
  Radix.view_of_walk h i

/-- A path leads on exactly through the present entries. -/
theorem walk_snoc (σ : Paging) (p : List Index) (i : Index) :
    Radix.walk target σ.mem P.pt4 (p ++ [i]) = target (σ.pte P p i) :=
  Radix.walk_snoc_view target_zero σ.mem P.pt4 p i

/-- Where an entry is absent, everything below it reads as absent. -/
theorem pte_below_absent {σ : Paging} {p : List Index} {i : Index}
    (h : isPresent (σ.pte P p i) = false) (j : Index) : σ.pte P (p ++ [i]) j = 0 :=
  Radix.view_of_none ((walk_snoc σ p i).trans (target_eq_none.mpr h)) j

/-! ## Directory levels -/

/-- What one directory level of the walk does to the entry at path `p`, index `i`, whatever
its flags. -/
structure DirView (P : Platform) (σ σ' : Paging) (p : List Index) (i : Index) : Prop where
  wf : WellFormed P σ'
  path : Radix.walk target σ'.mem P.pt4 p = Radix.walk target σ.mem P.pt4 p
  view : ∀ q j, q.length ≤ 3 → ¬ (q = p ∧ j = i) → σ'.pte P q j = σ.pte P q j
  present : isPresent (σ'.pte P p i) = true
  kept : isPresent (σ.pte P p i) = true →
    frameOf (σ'.pte P p i) = frameOf (σ.pte P p i) ∧ σ'.bitmap = σ.bitmap ∧
      σ'.obtained = σ.obtained
  created : isPresent (σ.pte P p i) = false →
    ∃ f < frameCount, PMM.isFree σ.bitmap f = true ∧
      (∀ g < f, PMM.isFree σ.bitmap g = false) ∧ frameOf (σ'.pte P p i) = frame P f ∧
      (∀ g, PMM.isFree σ'.bitmap g = (PMM.isFree σ.bitmap g && decide (g ≠ f))) ∧
      σ'.obtained = .table (frame P f) :: σ.obtained

/-- A directory level of a mapping for the kernel, or for user code. -/
structure DirStep (P : Platform) (σ σ' : Paging) (p : List Index) (i : Index) (k : Bool) : Prop
    extends DirView P σ σ' p i where
  user : isUser (σ'.pte P p i) = !k

/-- Page tables are scanned for from the first bitmap word on. -/
@[simp] theorem firstWord_self (P : Platform) :
    PMM.firstWord P.reservedStart P.reservedStart = 0 := by
  rw [PMM.firstWord, Nat.add_sub_cancel_left, Nat.mod_self, Nat.zero_div, Nat.zero_div]

/-- Writing an entry that designates the same frame as before is seen at one place. -/
theorem store_rewrite {σ : Paging} (h : WellFormed P σ) {p : List Index} (hp : p.length ≤ 3)
    {t : ℕ} (hw : Radix.walk target σ.mem P.pt4 p = some t) {i : Index} {e : Entry}
    (hnext : target e = target (σ.mem t i)) :
    WellFormed P (σ.store t i e) ∧
    (∀ q, Radix.walk target (σ.store t i e).mem P.pt4 q = Radix.walk target σ.mem P.pt4 q) ∧
    ∀ q j, q.length ≤ 3 →
      (σ.store t i e).pte P q j = if q = p ∧ j = i then e else σ.pte P q j := by
  refine ⟨⟨Radix.tree_rewrite h.tree hnext, ?_⟩, Radix.walk_rewrite hnext P.pt4,
    fun q j hq => Radix.view_rewrite h.tree hp hw hnext hq j⟩
  intro f hf hfree q hq
  exact fun hc => h.fresh f hf hfree q hq ((Radix.walk_rewrite hnext P.pt4 q).symm.trans hc)

/-- A level whose entry is present only changes the flags of that entry. -/
theorem dirView_rewrite {σ : Paging} (h : WellFormed P σ) {p : List Index} (hp : p.length < 3)
    {t : ℕ} (hw : Radix.walk target σ.mem P.pt4 p = some t) (i : Index) {flags : Entry}
    (hF : FlagWord flags) (hpres : isPresent (σ.mem t i) = true) :
    DirView P σ (σ.store t i ((σ.mem t i &&& lowMask) ||| flags)) p i := by
  have hpte : σ.pte P p i = σ.mem t i := pte_of_walk hw i
  have hnext : target ((σ.mem t i &&& lowMask) ||| flags) = target (σ.mem t i) := by
    rw [target_of_present (hF.isPresent_or _), target_of_present hpres, hF.frameOf_or,
      frameOf_and_lowMask]
  obtain ⟨hwf, hwalk, hview⟩ := store_rewrite h (by omega) hw hnext
  have hnew := hview p i (by omega)
  rw [if_pos ⟨rfl, rfl⟩] at hnew
  refine ⟨hwf, hwalk p, ?_, ?_, ?_, ?_⟩
  · intro q j hq hne
    rw [hview q j hq, if_neg hne]
  · rw [hnew, hF.isPresent_or]
  · intro _
    rw [hnew, hpte, hF.frameOf_or, frameOf_and_lowMask]
    exact ⟨rfl, rfl, rfl⟩
  · intro habs
    rw [hpte, hpres] at habs
    exact absurd habs (by simp)

/-- While frames are left, a page-table allocation takes the lowest and clears it. -/
theorem allocatePageTable_spec {σ : Paging}
    (hsome : ∃ f < frameCount, PMM.isFree σ.bitmap f = true) :
    ∃ f < frameCount, PMM.isFree σ.bitmap f = true ∧ (∀ g < f, PMM.isFree σ.bitmap g = false) ∧
      ∃ b : Bitmap, (∀ g, PMM.isFree b g = (PMM.isFree σ.bitmap g && decide (g ≠ f))) ∧
        σ.allocatePageTable P = (frame P f, { σ with
          bitmap := b
          mem := Function.update σ.mem (frame P f) fun _ => 0
          obtained := .table (frame P f) :: σ.obtained }) := by
  rcases PMM.allocatePageFrom_spec P.reservedStart σ.bitmap P.reservedStart with
    ⟨f, -, hf, hfree, hmin, haddr, hmark⟩ | ⟨hnone, -⟩
  · rw [firstWord_self, Nat.mul_zero] at hmin
    refine ⟨f, hf, hfree, fun g hg => hmin g (Nat.zero_le g) hg, _, hmark, ?_⟩
    rw [allocatePageTable, PMM.allocatePageTable, haddr]
  · rw [firstWord_self, Nat.mul_zero] at hnone
    obtain ⟨f, hf, hfree⟩ := hsome
    rw [hnone f (Nat.zero_le f) hf] at hfree
    exact absurd hfree (by simp)

/-- A level whose entry is absent links a cleared frame below it. -/
theorem dirView_link {σ : Paging} (hP : P.Valid) (h : WellFormed P σ) {p : List Index}
    (hp : p.length < 3) {t : ℕ} (hw : Radix.walk target σ.mem P.pt4 p = some t) (i : Index)
    {flags : Entry} (hF : FlagWord flags) (habs : isPresent (σ.mem t i) = false)
    (hsome : ∃ f < frameCount, PMM.isFree σ.bitmap f = true) :
    DirView P σ ((σ.allocatePageTable P).2.store t i
      (BitVec.ofNat 64 (σ.allocatePageTable P).1 ||| flags)) p i := by
  have hpte : σ.pte P p i = σ.mem t i := pte_of_walk hw i
  obtain ⟨f, hf, hfree, hmin, b, hbit, heq⟩ := allocatePageTable_spec (P := P) hsome
  rw [heq]
  obtain ⟨hal, -, hlt⟩ := frame_facts hP hf
  have hnext : target (BitVec.ofNat 64 (frame P f) ||| flags) = some (frame P f) := by
    rw [target_of_present (hF.isPresent_or _), hF.frameOf_or, frameOf_ofNat hal hlt]
  have hunr := h.fresh f hf hfree
  have htn : target (σ.mem t i) = none := target_eq_none.mpr habs
  have hwalk := fun {q : List Index} (hq : q.length ≤ 3) =>
    Radix.walk_link h.tree target_zero hp hw htn hnext hunr hq
  have hview := fun {q : List Index} (hq : q.length ≤ 3) =>
    Radix.view_link h.tree target_zero hp hw htn hnext hunr hq
  have hnew := hview (show p.length ≤ 3 by omega) i
  rw [if_pos ⟨rfl, rfl⟩] at hnew
  refine ⟨⟨?_, ?_⟩, ?_, ?_, ?_, ?_, ?_⟩
  · exact Radix.tree_link h.tree target_zero hp hw htn hnext hunr
  · intro g hg hgfree q hq hc
    simp only [store, hbit g, Bool.and_eq_true, decide_eq_true_eq] at hgfree
    simp only [store, hwalk hq] at hc
    by_cases hqp : q = p ++ [i]
    · rw [if_pos hqp, Option.some.injEq] at hc
      exact hgfree.2 (frame_injective hc.symm)
    · rw [if_neg hqp] at hc
      exact h.fresh g hg hgfree.1 q hq hc
  · simp only [store]
    rw [hwalk (by omega), if_neg (by simp)]
  · intro q j hq hne
    simp only [pte, store]
    rw [hview hq j, if_neg hne]
  · simp only [pte, store]
    rw [hnew, hF.isPresent_or]
  · intro hpres
    rw [hpte, habs] at hpres
    exact absurd hpres (by simp)
  · intro _
    refine ⟨f, hf, hfree, hmin, ?_, hbit, rfl⟩
    simp only [pte, store]
    rw [hnew, hF.frameOf_or, frameOf_ofNat hal hlt]

/-- One directory level of `vmm_map_memory`. -/
theorem ensureTable_dirView {σ : Paging} (hP : P.Valid) (h : WellFormed P σ) {p : List Index}
    (hp : p.length < 3) {t : ℕ} (hw : Radix.walk target σ.mem P.pt4 p = some t) (i : Index)
    {flags : Entry} (hF : FlagWord flags) (hsome : isPresent (σ.pte P p i) = false →
      ∃ f < frameCount, PMM.isFree σ.bitmap f = true) :
    DirView P σ (σ.ensureTable P t i flags) p i := by
  rw [pte_of_walk hw] at hsome
  rw [ensureTable]
  by_cases hpres : isPresent (σ.mem t i) = true
  · rw [if_pos hpres]
    exact dirView_rewrite h hp hw i hF hpres
  · rw [if_neg hpres]
    have habs : isPresent (σ.mem t i) = false := by simpa using hpres
    exact dirView_link hP h hp hw i hF habs (hsome habs)

@[simp] theorem mem_store_self (σ : Paging) (t : ℕ) (i : Index) (e : Entry) :
    (σ.store t i e).mem t i = e := Radix.setEntry_self σ.mem t i e

theorem mem_store_of_ne (σ : Paging) {t f : ℕ} (h : f ≠ t) (i : Index) (e : Entry) :
    (σ.store t i e).mem f = σ.mem f := Radix.setEntry_table_ne σ.mem h

@[simp] theorem mem_flushTlb (σ : Paging) (a : ℕ) : (σ.flushTlb a).mem = σ.mem := rfl

@[simp] theorem mem_backingFrame (σ : Paging) (physical v : ℕ) :
    (σ.backingFrame P physical v).2.mem = σ.mem := by
  rw [backingFrame]
  split <;> rfl

/-- A frame for a table is one of the allocator's, or null, and it alone is cleared. -/
theorem allocatePageTable_mem (hP : P.Valid) (σ : Paging) :
    frameOf (BitVec.ofNat 64 (σ.allocatePageTable P).1) = (σ.allocatePageTable P).1 ∧
      ∀ f, f ≠ (σ.allocatePageTable P).1 → (σ.allocatePageTable P).2.mem f = σ.mem f := by
  -- The result is named, so that nothing evaluates the allocator's scan.
  obtain ⟨r, hr⟩ : ∃ r, PMM.allocatePageTable P.reservedStart σ.bitmap = r := ⟨_, rfl⟩
  simp only [allocatePageTable, hr]
  refine ⟨?_, fun f hf => Function.update_of_ne hf _ _⟩
  rw [← hr, PMM.allocatePageTable]
  rcases PMM.allocatePageFrom_spec P.reservedStart σ.bitmap P.reservedStart with
    ⟨g, -, hg, -, -, haddr, -⟩ | ⟨-, he⟩
  · obtain ⟨hal, -, hlt⟩ := frame_facts hP hg
    rw [haddr]
    exact frameOf_ofNat hal hlt
  · rw [he]
    exact frameOf_ofNat (Nat.zero_mod _) (show 0 < 2 ^ 40 by decide)

/-- A directory level leaves the user bit of the mapping. -/
theorem isUser_ensureTable (hP : P.Valid) (σ : Paging) (t : ℕ) (i : Index) (k : Bool) :
    isUser ((σ.ensureTable P t i (mapFlags k)).mem t i) = !k := by
  rw [ensureTable]
  split
  · rw [mem_store_self, isUser_rewrite]
  · refine (congrArg isUser (mem_store_self _ t i _)).trans (isUser_ofNat ?_ k)
    obtain ⟨hframe, -⟩ := allocatePageTable_mem hP σ
    rw [← hframe, frameOf_eq]
    omega

/-- A directory level writes to its own table and clears the one it creates. -/
theorem ensureTable_mem {σ : Paging} (hP : P.Valid) {t f : ℕ} {i : Index} {k : Bool} (ht : f ≠ t)
    (hnew : f ≠ frameOf ((σ.ensureTable P t i (mapFlags k)).mem t i)) :
    (σ.ensureTable P t i (mapFlags k)).mem f = σ.mem f := by
  by_cases hpres : isPresent (σ.mem t i) = true
  · rw [ensureTable, if_pos hpres]
    exact mem_store_of_ne σ ht _ _
  · rw [ensureTable, if_neg hpres] at hnew ⊢
    obtain ⟨hframe, hcleared⟩ := allocatePageTable_mem hP σ
    have hentry := mem_store_self (σ.allocatePageTable P).2 t i
      (BitVec.ofNat 64 (σ.allocatePageTable P).1 ||| mapFlags k)
    rw [hentry, frameOf_or_flags, hframe] at hnew
    exact (mem_store_of_ne (σ.allocatePageTable P).2 ht _ _).trans (hcleared f hnew)

/-! ## The leaf level -/

/-- What the last level of the walk does to the leaf of `v`. A leaf that is present
keeps its frame; a new one gets the caller's frame or one from the allocator. -/
structure LeafStep (P : Platform) (σ σ' : Paging) (physical v : ℕ) (k : Bool) : Prop where
  wf : WellFormed P σ'
  view : ∀ q j, q.length ≤ 3 → ¬ (q = tablePath v ∧ j = pageIndex v) → σ'.pte P q j = σ.pte P q j
  present : isPresent (σ'.leaf P v) = true
  noExec : isNoExec (σ'.leaf P v) = true
  kept : isPresent (σ.leaf P v) = true →
    frameOf (σ'.leaf P v) = frameOf (σ.leaf P v) ∧ isUser (σ'.leaf P v) = !k ∧
      σ'.bitmap = σ.bitmap ∧ σ'.obtained = σ.obtained
  given : isPresent (σ.leaf P v) = false → physical ≠ 0 →
    σ'.leaf P v = BitVec.ofNat 64 physical ||| mapFlags k ||| noExecBit ∧
      σ'.bitmap = σ.bitmap ∧ σ'.obtained = σ.obtained
  drawn : isPresent (σ.leaf P v) = false → physical = 0 →
    σ'.leaf P v =
      BitVec.ofNat 64 (PMM.allocatePage P.reservedStart σ.bitmap).1 ||| mapFlags k ||| noExecBit ∧
      σ'.bitmap = (PMM.allocatePage P.reservedStart σ.bitmap).2 ∧
      σ'.obtained = .page (PMM.allocatePage P.reservedStart σ.bitmap).1 v :: σ.obtained

/-- Allocating a page only ever marks frames as used. -/
theorem isFree_allocatePage {bitmap : Bitmap} {f : ℕ}
    (h : PMM.isFree (PMM.allocatePage P.reservedStart bitmap).2 f = true) :
    PMM.isFree bitmap f = true := by
  rcases PMM.allocatePageFrom_spec P.reservedStart bitmap memStart with
    ⟨g, -, -, -, -, -, hmark⟩ | ⟨-, heq⟩
  · rw [PMM.allocatePage, hmark f, Bool.and_eq_true] at h
    exact h.1
  · rw [PMM.allocatePage, heq] at h
    exact h

/-- Writing a leaf entry keeps the tables as they are. -/
theorem store_leaf {σ : Paging} (h : WellFormed P σ) {v t : ℕ}
    (hw : Radix.walk target σ.mem P.pt4 (tablePath v) = some t) (e : Entry) {b : Bitmap}
    (hb : ∀ f, PMM.isFree b f = true → PMM.isFree σ.bitmap f = true) (o : List Obtained)
    (fl : List ℕ) :
    WellFormed P ⟨b, Radix.setEntry σ.mem t (pageIndex v) e, o, fl⟩ ∧
    (∀ q j, q.length ≤ 3 → ¬ (q = tablePath v ∧ j = pageIndex v) →
      (⟨b, Radix.setEntry σ.mem t (pageIndex v) e, o, fl⟩ : Paging).pte P q j = σ.pte P q j) ∧
    (⟨b, Radix.setEntry σ.mem t (pageIndex v) e, o, fl⟩ : Paging).leaf P v = e := by
  have hlen : (tablePath v).length = 3 := rfl
  have hview : ∀ {q : List Index}, q.length ≤ 3 → ∀ j,
      Radix.view target (0 : Entry) (Radix.setEntry σ.mem t (pageIndex v) e) P.pt4 q j =
        if q = tablePath v ∧ j = pageIndex v then e else Radix.view target 0 σ.mem P.pt4 q j :=
    fun hq j => Radix.view_setEntry h.tree (le_of_eq hlen) hw hq
      (Radix.walk_deep h.tree hlen hw hq) j
  refine ⟨⟨Radix.tree_deep h.tree hlen hw, ?_⟩, ?_, ?_⟩
  · intro f hf hfree q hq hc
    rw [Radix.walk_deep h.tree hlen hw hq] at hc
    exact h.fresh f hf (hb f hfree) q hq hc
  · intro q j hq hne
    simp only [pte]
    rw [hview hq j, if_neg hne]
  · simp only [leaf, pte]
    rw [hview (le_of_eq hlen), if_pos ⟨rfl, rfl⟩]

/-- The last level writes to its own table. -/
theorem mapLeaf_mem (σ : Paging) {t f : ℕ} (ht : f ≠ t) (physical v : ℕ) (flags : Entry) :
    (σ.mapLeaf P t physical v flags).mem f = σ.mem f := by
  rw [mapLeaf]
  split
  · rw [mem_flushTlb, mem_store_of_ne σ ht]
  · rw [mem_flushTlb, mem_store_of_ne _ ht, mem_backingFrame]

/-- The last level of `vmm_map_memory`. -/
theorem mapLeaf_leafStep {σ : Paging} (h : WellFormed P σ) {v t : ℕ}
    (hw : Radix.walk target σ.mem P.pt4 (tablePath v) = some t) (physical : ℕ) (k : Bool) :
    LeafStep P σ (σ.mapLeaf P t physical v (mapFlags k)) physical v k := by
  have hleaf : σ.leaf P v = σ.mem t (pageIndex v) := pte_of_walk hw _
  rw [mapLeaf]
  by_cases hpres : isPresent (σ.mem t (pageIndex v)) = true
  · rw [if_pos hpres]
    obtain ⟨hwf, hview, hnew⟩ := store_leaf h hw
      ((σ.mem t (pageIndex v) &&& lowMask) ||| mapFlags k ||| noExecBit) (b := σ.bitmap)
      (fun _ => id) σ.obtained (physical :: σ.flushed)
    refine ⟨hwf, hview, ?_, ?_, ?_, ?_, ?_⟩
    · simp [flushTlb, store, hnew]
    · simp [flushTlb, store, hnew]
    · intro _
      simp [flushTlb, store, hnew, hleaf]
    · intro habs
      rw [hleaf, hpres] at habs
      exact absurd habs (by simp)
    · intro habs
      rw [hleaf, hpres] at habs
      exact absurd habs (by simp)
  · rw [if_neg hpres]
    by_cases hphys : physical = 0
    · obtain ⟨hwf, hview, hnew⟩ := store_leaf h hw
        (BitVec.ofNat 64 (PMM.allocatePage P.reservedStart σ.bitmap).1 ||| mapFlags k ||| noExecBit)
        (b := (PMM.allocatePage P.reservedStart σ.bitmap).2) (fun f => isFree_allocatePage)
        (.page (PMM.allocatePage P.reservedStart σ.bitmap).1 v :: σ.obtained)
        ((PMM.allocatePage P.reservedStart σ.bitmap).1 :: σ.flushed)
      simp only [backingFrame, if_pos hphys, flushTlb, store]
      refine ⟨hwf, hview, ?_, ?_, ?_, ?_, ?_⟩
      · simp [hnew]
      · simp [hnew]
      · intro hp
        rw [hleaf] at hp
        exact absurd hp hpres
      · intro _ hc
        exact absurd hphys hc
      · intro _ _
        exact ⟨hnew, rfl, rfl⟩
    · obtain ⟨hwf, hview, hnew⟩ := store_leaf h hw
        (BitVec.ofNat 64 physical ||| mapFlags k ||| noExecBit) (b := σ.bitmap) (fun _ => id)
        σ.obtained (physical :: σ.flushed)
      simp only [backingFrame, if_neg hphys, flushTlb, store]
      refine ⟨hwf, hview, ?_, ?_, ?_, ?_, ?_⟩
      · simp [hnew]
      · simp [hnew]
      · intro hp
        rw [hleaf] at hp
        exact absurd hp hpres
      · intro _ _
        exact ⟨hnew, rfl, rfl⟩
      · intro _ hc
        exact absurd hc hphys

/-! ## The whole walk -/

/-- The frames that have not been handed out. -/
def freeFrames (σ : Paging) : Finset ℕ :=
  (Finset.range frameCount).filter fun f => PMM.isFree σ.bitmap f = true

/-- `1` for an entry that is not present. -/
def absent (e : Entry) : ℕ := if isPresent e then 0 else 1

/-- How many tables the walk of `v` lacks. -/
def lackingTables (P : Platform) (σ : Paging) (v : ℕ) : ℕ :=
  absent (σ.pte P [] (pt4Index v)) + absent (σ.pte P [pt4Index v] (pt3Index v)) +
    absent (σ.pte P [pt4Index v, pt3Index v] (pt2Index v))

theorem absent_eq_one {e : Entry} (h : isPresent e = false) : absent e = 1 := by simp [absent, h]

theorem absent_eq_zero {e : Entry} (h : isPresent e = true) : absent e = 0 := by simp [absent, h]

/-- Creating a table uses up one frame; rewriting an entry uses none. -/
theorem DirView.card_freeFrames {σ σ' : Paging} {p : List Index} {i : Index}
    (h : DirView P σ σ' p i) :
    σ.freeFrames.card ≤ σ'.freeFrames.card + absent (σ.pte P p i) := by
  cases hp : isPresent (σ.pte P p i) with
  | true =>
      rw [freeFrames, freeFrames, (h.kept hp).2.1]
      omega
  | false =>
      obtain ⟨f, -, -, -, -, hbit, -⟩ := h.created hp
      have herase : σ'.freeFrames = σ.freeFrames.erase f := by
        ext g
        simp only [freeFrames, Finset.mem_filter, Finset.mem_erase, Finset.mem_range, hbit g,
          Bool.and_eq_true, decide_eq_true_eq]
        exact ⟨fun ⟨a, b, c⟩ => ⟨c, a, b⟩, fun ⟨c, a, b⟩ => ⟨a, b, c⟩⟩
      have := Finset.pred_card_le_card_erase (s := σ.freeFrames) (a := f)
      rw [herase, absent_eq_one hp]
      omega

theorem exists_free_of_card_pos {σ : Paging} (h : 0 < σ.freeFrames.card) :
    ∃ f < frameCount, PMM.isFree σ.bitmap f = true := by
  obtain ⟨f, hf⟩ := Finset.card_pos.mp h
  rw [freeFrames, Finset.mem_filter, Finset.mem_range] at hf
  exact ⟨f, hf.1, hf.2⟩

/-- Where a directory level leads to. -/
theorem DirView.walk_next {σ σ' : Paging} {p : List Index} {i : Index}
    (s : DirView P σ σ' p i) {t : ℕ} (hw : Radix.walk target σ.mem P.pt4 p = some t) :
    Radix.walk target σ'.mem P.pt4 (p ++ [i]) = some (frameOf (σ'.mem t i)) := by
  rw [walk_snoc, target_of_present s.present, pte_of_walk (s.path.trans hw)]

theorem DirView.leaf_eq {σ σ' : Paging} {p : List Index} {i : Index} (s : DirView P σ σ' p i)
    (hp : p.length < 3) (v : ℕ) : σ'.leaf P v = σ.leaf P v := by
  refine s.view _ _ (by simp [tablePath]) fun h => ?_
  rw [← h.1] at hp
  simp [tablePath] at hp

/-- One directory level of the walk: from the table `t` at path `p` to `t'`. -/
structure Descent (P : Platform) (flags : Entry) (σ σ' : Paging) (p : List Index) (i : Index)
    (t t' : ℕ) : Prop extends DirView P σ σ' p i where
  eq : σ' = σ.ensureTable P t i flags
  next : t' = frameOf (σ'.mem t i)
  walk : Radix.walk target σ.mem P.pt4 p = some t

theorem Descent.walk_below {flags : Entry} {σ σ' : Paging} {p : List Index} {i : Index} {t t' : ℕ}
    (d : Descent P flags σ σ' p i t t') : Radix.walk target σ'.mem P.pt4 (p ++ [i]) = some t' := by
  rw [d.next]
  exact d.walk_next d.walk

/-- The level at the table where the walk stands, as long as a frame is left for the table
that it may lack. -/
theorem exists_descent {σ : Paging} (hP : P.Valid) (h : WellFormed P σ) {p : List Index}
    (hp : p.length < 3) {t : ℕ} (hw : Radix.walk target σ.mem P.pt4 p = some t) (i : Index)
    {flags : Entry} (hF : FlagWord flags) (hcard : absent (σ.pte P p i) ≤ σ.freeFrames.card) :
    ∃ σ' t', Descent P flags σ σ' p i t t' := by
  refine ⟨_, _, ensureTable_dirView hP h hp hw i hF fun ha => ?_, rfl, rfl, hw⟩
  rw [absent_eq_one ha] at hcard
  exact exists_free_of_card_pos hcard

/-- **`vmm_map_memory` level by level**, as long as the allocator can supply the tables
the walk lacks. -/
theorem vmmMapMemory_descends {σ : Paging} (hP : P.Valid) (h : WellFormed P σ) (physical v : ℕ)
    {flags : Entry} (hF : FlagWord flags) (hsupply : σ.lackingTables P v ≤ σ.freeFrames.card) :
    ∃ σ₁ σ₂ σ₃ pt3 pt2 pageTable, Descent P flags σ σ₁ [] (pt4Index v) P.pt4 pt3 ∧
      Descent P flags σ₁ σ₂ [pt4Index v] (pt3Index v) pt3 pt2 ∧
      Descent P flags σ₂ σ₃ [pt4Index v, pt3Index v] (pt2Index v) pt2 pageTable ∧
      σ.vmmMapMemory P physical v flags = σ₃.mapLeaf P pageTable physical v flags := by
  rw [lackingTables] at hsupply
  -- First level, at the root table.
  obtain ⟨σ₁, pt3, d₁⟩ := exists_descent hP h (p := []) (by simp) rfl (pt4Index v) hF (by omega)
  have hc₁ := d₁.card_freeFrames
  have hv₁ : σ₁.pte P [pt4Index v] (pt3Index v) = σ.pte P [pt4Index v] (pt3Index v) :=
    d₁.view _ _ (by simp) (by simp)
  -- Second level.
  obtain ⟨σ₂, pt2, d₂⟩ := exists_descent hP d₁.wf (by simp) d₁.walk_below (pt3Index v) hF
    (by rw [List.nil_append, hv₁]; omega)
  have hc₂ := d₂.card_freeFrames
  rw [List.nil_append, hv₁] at hc₂
  have hv₂ : σ₂.pte P [pt4Index v, pt3Index v] (pt2Index v) =
      σ.pte P [pt4Index v, pt3Index v] (pt2Index v) := by
    rw [d₂.view _ _ (by simp) (by simp), d₁.view _ _ (by simp) (by simp)]
  -- Third level.
  obtain ⟨σ₃, pageTable, d₃⟩ := exists_descent hP d₂.wf (by simp) d₂.walk_below (pt2Index v) hF
    (by rw [List.nil_append, List.singleton_append, hv₂]; omega)
  refine ⟨σ₁, σ₂, σ₃, pt3, pt2, pageTable, d₁, d₂, d₃, ?_⟩
  simp only [vmmMapMemory, ← d₁.eq, ← d₁.next, ← d₂.eq, ← d₂.next, ← d₃.eq, ← d₃.next]

theorem Descent.dirStep (hP : P.Valid) {σ σ' : Paging} {p : List Index} {i : Index} {t t' : ℕ}
    {k : Bool} (d : Descent P (mapFlags k) σ σ' p i t t') : DirStep P σ σ' p i k :=
  ⟨d.toDirView, by rw [pte_of_walk (d.path.trans d.walk), d.eq, isUser_ensureTable hP]⟩

/-- The levels of a mapping for the kernel, or for user code. Only frames that are tables by
then are written to. -/
theorem vmmMapMemory_steps {σ : Paging} (hP : P.Valid) (h : WellFormed P σ) (physical v : ℕ)
    (k : Bool) (hsupply : σ.lackingTables P v ≤ σ.freeFrames.card) :
    ∃ σ₁ σ₂ σ₃, DirStep P σ σ₁ [] (pt4Index v) k ∧ DirStep P σ₁ σ₂ [pt4Index v] (pt3Index v) k ∧
      DirStep P σ₂ σ₃ [pt4Index v, pt3Index v] (pt2Index v) k ∧
      LeafStep P σ₃ (σ.vmmMapMemory P physical v (mapFlags k)) physical v k ∧
      ∀ f, Radix.Unreached target σ₃.mem P.pt4 3 f →
        (σ.vmmMapMemory P physical v (mapFlags k)).mem f = σ.mem f := by
  obtain ⟨σ₁, σ₂, σ₃, pt3, pt2, pageTable, d₁, d₂, d₃, heq⟩ :=
    vmmMapMemory_descends hP h physical v (flagWord_mapFlags k) hsupply
  have hw₃ : Radix.walk target σ₃.mem P.pt4 (tablePath v) = some pageTable := d₃.walk_below
  rw [heq]
  refine ⟨σ₁, σ₂, σ₃, d₁.dirStep hP, d₂.dirStep hP, d₃.dirStep hP,
    mapLeaf_leafStep d₃.wf hw₃ physical k, fun f hf => ?_⟩
  have hpt3 : Radix.walk target σ₃.mem P.pt4 [pt4Index v] = some pt3 := by
    have hsnoc := walk_snoc (P := P) σ₃ [] (pt4Index v)
    rw [d₃.view [] _ (by simp) (by simp), ← walk_snoc] at hsnoc
    exact hsnoc.trans (d₂.path.trans d₁.walk_below)
  have hne₀ : f ≠ P.pt4 := fun he => hf [] (by simp) (he ▸ rfl)
  have hne₁ : f ≠ pt3 := fun he => hf _ (by simp) (he ▸ hpt3)
  have hne₂ : f ≠ pt2 := fun he => hf _ (by simp) (he ▸ d₃.path.trans d₃.walk)
  have hne₃ : f ≠ pageTable := fun he => hf _ (by simp [tablePath]) (he ▸ hw₃)
  have step : ∀ {τ τ' : Paging} {p : List Index} {i : Index} {t t' : ℕ},
      Descent P (mapFlags k) τ τ' p i t t' → f ≠ t → f ≠ t' → τ'.mem f = τ.mem f := by
    intro τ τ' p i t t' d ht ht'
    rw [d.next, d.eq] at ht'
    rw [d.eq, ensureTable_mem hP ht ht']
  calc (σ₃.mapLeaf P pageTable physical v (mapFlags k)).mem f
      = σ₃.mem f := mapLeaf_mem σ₃ hne₃ physical v (mapFlags k)
    _ = σ₂.mem f := step d₃ hne₂ hne₃
    _ = σ₁.mem f := step d₂ hne₁ hne₂
    _ = σ.mem f := step d₁ hne₀ hne₁

/-- The positions of the directory entries the walk of `v` passes. -/
def dirsOf (v : ℕ) : List (List Index × Index) :=
  [([], pt4Index v), ([pt4Index v], pt3Index v), ([pt4Index v, pt3Index v], pt2Index v)]

/-- The position of the leaf entry of `v`. -/
def leafOf (v : ℕ) : List Index × Index := (tablePath v, pageIndex v)

variable (P) in
theorem leaf_congr (σ : Paging) {v w : ℕ} (h : leafOf w = leafOf v) : σ.leaf P w = σ.leaf P v :=
  congrArg (fun x : List Index × Index => σ.pte P x.1 x.2) h

theorem length_le_of_mem_dirsOf {v : ℕ} {x : List Index × Index} (h : x ∈ dirsOf v) :
    x.1.length ≤ 2 := by
  simp only [dirsOf, List.mem_cons, List.not_mem_nil, or_false] at h
  rcases h with rfl | rfl | rfl <;> simp

theorem leafOf_not_mem_dirsOf (v w : ℕ) : leafOf w ∉ dirsOf v := by
  intro h
  have := length_le_of_mem_dirsOf h
  simp [leafOf, tablePath] at this

/-- What `vmm_map_memory(physical, v, flags)` does to the view. -/
structure MapStep (P : Platform) (σ σ' : Paging) (physical v : ℕ) (k : Bool) : Prop where
  wf : WellFormed P σ'
  view : ∀ x : List Index × Index, x.1.length ≤ 3 → x ∉ dirsOf v → x ≠ leafOf v →
    σ'.pte P x.1 x.2 = σ.pte P x.1 x.2
  dirs : ∀ x ∈ dirsOf v, isPresent (σ'.pte P x.1 x.2) = true ∧ isUser (σ'.pte P x.1 x.2) = !k ∧
    (isPresent (σ.pte P x.1 x.2) = true → frameOf (σ'.pte P x.1 x.2) = frameOf (σ.pte P x.1 x.2))
  present : isPresent (σ'.leaf P v) = true
  noExec : isNoExec (σ'.leaf P v) = true
  kept : isPresent (σ.leaf P v) = true →
    frameOf (σ'.leaf P v) = frameOf (σ.leaf P v) ∧ isUser (σ'.leaf P v) = !k
  given : isPresent (σ.leaf P v) = false → physical ≠ 0 →
    σ'.leaf P v = BitVec.ofNat 64 physical ||| mapFlags k ||| noExecBit

/-- Four levels, seen from outside: each directory entry is written once and no level
disturbs the entries of the others. -/
theorem mapStep_of_steps {σ σ₁ σ₂ σ₃ σ' : Paging} {physical v : ℕ} {k : Bool}
    (s₁ : DirStep P σ σ₁ [] (pt4Index v) k) (s₂ : DirStep P σ₁ σ₂ [pt4Index v] (pt3Index v) k)
    (s₃ : DirStep P σ₂ σ₃ [pt4Index v, pt3Index v] (pt2Index v) k)
    (s₄ : LeafStep P σ₃ σ' physical v k) : MapStep P σ σ' physical v k := by
  have hleaf : σ₃.leaf P v = σ.leaf P v := by
    simp only [leaf]
    rw [s₃.view _ _ (by simp [tablePath]) (by simp [tablePath]),
      s₂.view _ _ (by simp [tablePath]) (by simp [tablePath]),
      s₁.view _ _ (by simp [tablePath]) (by simp [tablePath])]
  have e₁ : σ'.pte P [] (pt4Index v) = σ₁.pte P [] (pt4Index v) := by
    rw [s₄.view _ _ (by simp) (by simp [tablePath]), s₃.view _ _ (by simp) (by simp),
      s₂.view _ _ (by simp) (by simp)]
  have e₂ : σ'.pte P [pt4Index v] (pt3Index v) = σ₂.pte P [pt4Index v] (pt3Index v) := by
    rw [s₄.view _ _ (by simp) (by simp [tablePath]), s₃.view _ _ (by simp) (by simp)]
  have e₃ : σ'.pte P [pt4Index v, pt3Index v] (pt2Index v) =
      σ₃.pte P [pt4Index v, pt3Index v] (pt2Index v) :=
    s₄.view _ _ (by simp) (by simp [tablePath])
  have o₂ : σ₁.pte P [pt4Index v] (pt3Index v) = σ.pte P [pt4Index v] (pt3Index v) :=
    s₁.view _ _ (by simp) (by simp)
  have o₃ : σ₂.pte P [pt4Index v, pt3Index v] (pt2Index v) =
      σ.pte P [pt4Index v, pt3Index v] (pt2Index v) := by
    rw [s₂.view _ _ (by simp) (by simp), s₁.view _ _ (by simp) (by simp)]
  refine ⟨s₄.wf, ?_, ?_, s₄.present, s₄.noExec, ?_, ?_⟩
  · rintro ⟨q, j⟩ hq hdirs hne
    simp only [dirsOf, List.mem_cons, Prod.mk.injEq, List.not_mem_nil, or_false, not_or] at hdirs
    simp only [leafOf, ne_eq, Prod.mk.injEq] at hne
    rw [s₄.view q j hq hne, s₃.view q j hq hdirs.2.2, s₂.view q j hq hdirs.2.1,
      s₁.view q j hq hdirs.1]
  · intro x hx
    simp only [dirsOf, List.mem_cons, List.not_mem_nil, or_false] at hx
    rcases hx with rfl | rfl | rfl
    · rw [e₁]
      exact ⟨s₁.present, s₁.user, fun h => (s₁.kept h).1⟩
    · rw [e₂, ← o₂]
      exact ⟨s₂.present, s₂.user, fun h => (s₂.kept h).1⟩
    · rw [e₃, ← o₃]
      exact ⟨s₃.present, s₃.user, fun h => (s₃.kept h).1⟩
  · intro h
    rw [← hleaf] at h ⊢
    exact ⟨(s₄.kept h).1, (s₄.kept h).2.1⟩
  · intro h hphys
    rw [← hleaf] at h
    exact (s₄.given h hphys).1

/-- The view of the page tables after `vmm_map_memory`. -/
theorem vmmMapMemory_mapStep {σ : Paging} (hP : P.Valid) (h : WellFormed P σ) (physical v : ℕ)
    (k : Bool) (hsupply : σ.lackingTables P v ≤ σ.freeFrames.card) :
    MapStep P σ (σ.vmmMapMemory P physical v (mapFlags k)) physical v k := by
  obtain ⟨σ₁, σ₂, σ₃, s₁, s₂, s₃, s₄, -⟩ := vmmMapMemory_steps hP h physical v k hsupply
  exact mapStep_of_steps s₁ s₂ s₃ s₄

end Paging
end BootableKernel
