import BootableKernel.Memory.PMM

/-!
# Which frames are handed out

`pmm_allocate_page` is meant to keep off the memory below `MEM_START`, where the page
tables are. The scan starts with a whole word of the bitmap, though, and the word that
holds the start also holds the frames before it, unless the start is a multiple of 64
frames above `RESERVED_START`.
-/

namespace BootableKernel
namespace PMM

variable {reservedStart start : ℕ} {bitmap : Bitmap}

/-- An address handed out for `start` is not below it. -/
def NotBelow (reservedStart : ℕ) (bitmap : Bitmap) (start : ℕ) : Prop :=
  (allocatePageFrom reservedStart bitmap start).1 ≠ 0 →
    start ≤ (allocatePageFrom reservedStart bitmap start).1

/-- The bytes of the frames of one word: 256 KB. -/
def wordSize : ℕ := 64 * pageSize

/-- The frames before `start` in the words that are scanned for it are all in use. -/
def UsedBelow (reservedStart : ℕ) (bitmap : Bitmap) (start : ℕ) : Prop :=
  ∀ f, 64 * firstWord reservedStart start ≤ f → f < frameCount →
    frameAddr reservedStart f < start → isFree bitmap f = false

/-- The one case in which a frame below `start` goes unnoticed: its address is the null
pointer. -/
def HandsOutNull (reservedStart : ℕ) (bitmap : Bitmap) (start : ℕ) : Prop :=
  reservedStart = 0 ∧ firstWord reservedStart start = 0 ∧ isFree bitmap 0 = true

/-- The address is right exactly if the frames before `start` are in use. -/
theorem notBelow_iff :
    NotBelow reservedStart bitmap start ↔
      UsedBelow reservedStart bitmap start ∨ HandsOutNull reservedStart bitmap start := by
  obtain ⟨f, hlo, hhi, hfree, hmin, haddr, -⟩ | ⟨hnone, hnull⟩ :=
    allocatePageFrom_spec reservedStart bitmap start
  · rw [NotBelow, haddr]
    constructor
    · intro h
      by_cases hzero : frameAddr reservedStart f = 0
      · right
        simp only [frameAddr, pageSize] at hzero
        obtain rfl : f = 0 := by omega
        exact ⟨by omega, by omega, hfree⟩
      · left
        intro g hglo _ hg
        have hstart := h hzero
        simp only [frameAddr, pageSize] at hg hstart
        exact hmin g hglo (by omega)
    · intro h hne
      rcases h with hused | ⟨hres, hword, hzero⟩
      · by_contra hlt
        have hbusy := hused f hlo hhi (Nat.not_le.mp hlt)
        rw [hfree] at hbusy
        cases hbusy
      · -- the lowest free frame is frame 0, at address 0
        have hf : f = 0 := by
          by_contra hf
          rw [hmin 0 (by omega) (by omega)] at hzero
          cases hzero
        simp [frameAddr, hres, hf] at hne
  · rw [NotBelow, hnull]
    constructor
    · intro _
      left
      intro f hlo hhi _
      exact hnone f hlo hhi
    · intro _ hne
      exact absurd rfl hne

/-- At start-up every frame is free, so the first frame of the word decides. -/
theorem not_usedBelow_init (hword : firstWord reservedStart start < bitmapWords)
    (hlt : frameAddr reservedStart (64 * firstWord reservedStart start) < start) :
    ¬ UsedBelow reservedStart init start := by
  intro h
  have hbusy := h _ (Nat.le_refl _) (by simp only [frameCount]; omega) hlt
  rw [isFree_init] at hbusy
  cases hbusy

/-- `pmm_allocate_page` keeps off the memory below `MEM_START` in every state of the bitmap
exactly if `RESERVED_START` is a multiple of 256 KB. -/
theorem notBelow_memStart_iff (h : reservedStart ≤ memStart) :
    (∀ bitmap, NotBelow reservedStart bitmap memStart) ↔ reservedStart % wordSize = 0 := by
  have hfirst := firstWord_of_le h (show memStart < 2 ^ 64 by decide)
  simp only [memStart, pageSize] at h hfirst
  constructor
  · intro hall
    by_contra hres
    simp only [wordSize, pageSize] at hres
    rcases notBelow_iff.mp (hall init) with hused | hnull
    · refine not_usedBelow_init ?_ ?_ hused
      · simp only [memStart, bitmapWords]
        omega
      · simp only [frameAddr, memStart, pageSize]
        omega
    · have := hnull.1
      omega
  · intro hres bitmap
    apply notBelow_iff.mpr
    left
    intro f hlo _ hlt
    simp only [frameAddr, wordSize, memStart, pageSize] at *
    omega

/-- In every state, a frame handed out for `start` is not below it exactly if the frames
before `start` in the scanned words are in use. For `pmm_allocate_page` this holds in all
states only if `RESERVED_START` is a multiple of 256 KB. -/
theorem allocatePageFrom_not_below (h : reservedStart ≤ memStart) :
    (∀ bitmap start, NotBelow reservedStart bitmap start ↔
      UsedBelow reservedStart bitmap start ∨ HandsOutNull reservedStart bitmap start) ∧
    ((∀ bitmap, NotBelow reservedStart bitmap memStart) ↔ reservedStart % wordSize = 0) :=
  ⟨fun _ _ => notBelow_iff, notBelow_memStart_iff h⟩

/-- An image that ends just below `MEM_START`: the first call of `pmm_allocate_page` hands
out the frame before it. -/
theorem allocatePage_below_memStart :
    (allocatePage 0x1ff000 init).1 = 0x1ff000 ∧ ¬ NotBelow 0x1ff000 init memStart := by
  constructor
  · decide +kernel
  · intro h
    rcases notBelow_iff.mp h with hused | hnull
    · exact not_usedBelow_init (by decide) (by decide) hused
    · exact absurd hnull.1 (by decide)

/-- The image of the example above. -/
theorem allocatePageFrom_not_below_image :
    0x1ff000 ≤ memStart ∧
      ((∀ bitmap, NotBelow 0x1ff000 bitmap memStart) ↔ 0x1ff000 % wordSize = 0) := by
  have h : 0x1ff000 ≤ memStart := by decide
  exact ⟨h, (allocatePageFrom_not_below h).2⟩

end PMM
end BootableKernel
