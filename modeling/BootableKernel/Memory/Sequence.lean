import BootableKernel.Lib.LeastFirst
import BootableKernel.Memory.PMM
import Mathlib.Data.List.Induction
import Mathlib.Data.Set.Image
import Mathlib.Order.Interval.Set.Defs

/-!
# Sequences of frame allocations

The two allocators share one bitmap and start at different words of it. Over any sequence
of calls after `pmm_init` they give out least elements first (`LeastFirst`): a call asks for
an address of the frames from its first word on, and the null pointer says that there is
none left.

The bitmap records what was given out (`Agrees`), which is all that a step has to keep.
-/

namespace BootableKernel
namespace PMM

/-- A call of one of the two allocators. -/
inductive Call where
  | pageTable
  | page
  deriving DecidableEq

namespace Call

/-- The address that is passed to `allocate_page_from`. -/
def start (reservedStart : ℕ) : Call → ℕ
  | .pageTable => reservedStart
  | .page => memStart

def perform (reservedStart : ℕ) (bitmap : Bitmap) : Call → ℕ × Bitmap
  | .pageTable => allocatePageTable reservedStart bitmap
  | .page => allocatePage reservedStart bitmap

theorem perform_eq (reservedStart : ℕ) (bitmap : Bitmap) (c : Call) :
    c.perform reservedStart bitmap =
      allocatePageFrom reservedStart bitmap (c.start reservedStart) := by
  cases c <;> rfl

end Call

/-- The pointers that were returned, and the bitmap. -/
structure Served where
  returned : List ℕ
  bitmap : Bitmap

def Served.step (reservedStart : ℕ) (s : Served) (c : Call) : Served :=
  let r := c.perform reservedStart s.bitmap
  ⟨s.returned ++ [r.1], r.2⟩

/-- A sequence of calls after `pmm_init`. -/
def runCalls (reservedStart : ℕ) (calls : List Call) : Served :=
  calls.foldl (Served.step reservedStart) ⟨[], init⟩

@[simp] theorem runCalls_concat (reservedStart : ℕ) (calls : List Call) (c : Call) :
    runCalls reservedStart (calls ++ [c]) = (runCalls reservedStart calls).step reservedStart c := by
  rw [runCalls, List.foldl_append]
  rfl

/-! ## Pointers -/

/-- A pointer as an answer. -/
def ofPointer (a : ℕ) : Option ℕ := if a = 0 then none else some a

/-- What was handed out: the pointers that are not null. -/
def handedOut (returned : List ℕ) : List ℕ := returned.filter (· ≠ 0)

theorem reduceOption_map_ofPointer (returned : List ℕ) :
    (returned.map ofPointer).reduceOption = handedOut returned := by
  induction returned with
  | nil => rfl
  | cons a returned ih =>
      rw [handedOut] at ih ⊢
      by_cases ha : a = 0
      · simp [ofPointer, ha, ih]
      · simp [ofPointer, ha, ih]

/-- The frames of the words from `i` on. -/
def framesFrom (reservedStart i : ℕ) : Set ℕ :=
  frameAddr reservedStart '' Set.Ico (64 * i) frameCount

@[simp] theorem frameAddr_inj {reservedStart f g : ℕ} :
    frameAddr reservedStart f = frameAddr reservedStart g ↔ f = g := by
  simp only [frameAddr, pageSize]
  omega

theorem frameAddr_le {reservedStart f g : ℕ} (h : f ≤ g) :
    frameAddr reservedStart f ≤ frameAddr reservedStart g := by
  simp only [frameAddr, pageSize]
  omega

theorem ofPointer_frameAddr {reservedStart : ℕ} (h : 0 < reservedStart) (f : ℕ) :
    ofPointer (frameAddr reservedStart f) = some (frameAddr reservedStart f) := by
  apply if_neg
  rw [frameAddr]
  omega

/-! ## Runs -/

/-- A frame's bit is clear exactly if the frame was given out. -/
def Agrees (reservedStart : ℕ) (bitmap : Bitmap) (given : List ℕ) : Prop :=
  ∀ f < frameCount, isFree bitmap f = false ↔ frameAddr reservedStart f ∈ given

variable {reservedStart : ℕ} {bitmap : Bitmap} {given : List ℕ}

theorem agrees_init : Agrees reservedStart init [] := by
  intro f _
  simp

/-- A frame that was free is the answer, if it is the lowest one. -/
theorem Agrees.answer_frame (h : Agrees reservedStart bitmap given) {i f : ℕ} (hlo : 64 * i ≤ f)
    (hhi : f < frameCount) (hfree : isFree bitmap f = true)
    (hmin : ∀ g, 64 * i ≤ g → g < f → isFree bitmap g = false) :
    LeastFirst.Answer given (framesFrom reservedStart i) (some (frameAddr reservedStart f)) := by
  have hnew : frameAddr reservedStart f ∉ given := by
    intro hmem
    rw [(h f hhi).mpr hmem] at hfree
    cases hfree
  refine ⟨⟨Set.mem_image_of_mem _ ⟨hlo, hhi⟩, hnew⟩, ?_⟩
  rintro x ⟨⟨g, hg, rfl⟩, hgiven⟩
  -- a lower frame of these words is in use
  by_contra hlt
  have hgf : g < f := by
    by_contra hge
    exact hlt (frameAddr_le (Nat.not_lt.mp hge))
  exact hgiven ((h g hg.2).mp (hmin g hg.1 hgf))

theorem Agrees.answer_null (h : Agrees reservedStart bitmap given) {i : ℕ}
    (hnone : ∀ f, 64 * i ≤ f → f < frameCount → isFree bitmap f = false) :
    LeastFirst.Answer given (framesFrom reservedStart i) none := by
  rintro x ⟨f, hf, rfl⟩
  exact (h f hf.2).mp (hnone f hf.1 hf.2)

/-- A bit that is cleared is the frame that is given out. -/
theorem Agrees.clear (h : Agrees reservedStart bitmap given) {bitmap' : Bitmap} {f : ℕ}
    (hbits : ∀ g, isFree bitmap' g = (isFree bitmap g && decide (g ≠ f))) :
    Agrees reservedStart bitmap' (given ++ [frameAddr reservedStart f]) := by
  intro g hg
  rw [hbits, Bool.and_eq_false_iff, h g hg, decide_eq_false_iff_not, not_not, List.mem_append,
    List.mem_singleton, frameAddr_inj]

/-- One call. -/
theorem Agrees.allocatePageFrom (h : Agrees reservedStart bitmap given) (hpos : 0 < reservedStart)
    {start : ℕ} {r : ℕ × Bitmap} (hr : PMM.allocatePageFrom reservedStart bitmap start = r) :
    LeastFirst.Answer given (framesFrom reservedStart (firstWord reservedStart start))
        (ofPointer r.1) ∧
      Agrees reservedStart r.2 (given ++ (ofPointer r.1).toList) := by
  have hspec := allocatePageFrom_spec reservedStart bitmap start
  rw [hr] at hspec
  rcases hspec with ⟨f, hlo, hhi, hfree, hmin, haddr, hbits⟩ | ⟨hnone, hnull⟩
  · rw [haddr, ofPointer_frameAddr hpos]
    exact ⟨h.answer_frame hlo hhi hfree hmin, h.clear hbits⟩
  · rw [hnull]
    have hend : given ++ (ofPointer 0).toList = given := List.append_nil given
    rw [hend]
    exact ⟨h.answer_null hnone, h⟩

/-- The frames that a call may hand out. -/
def requested (reservedStart : ℕ) (c : Call) : Set ℕ :=
  framesFrom reservedStart (firstWord reservedStart (c.start reservedStart))

/-- Any sequence of calls. -/
theorem runCalls_leastFirst (hpos : 0 < reservedStart) (calls : List Call) :
    let s := runCalls reservedStart calls
    LeastFirst.Run (calls.map (requested reservedStart)) (s.returned.map ofPointer) ∧
      Agrees reservedStart s.bitmap (handedOut s.returned) := by
  induction calls using List.reverseRecOn with
  | nil => exact ⟨.nil, agrees_init⟩
  | append_singleton calls c ih =>
      rw [runCalls_concat]
      have hstep := ih.2.allocatePageFrom hpos (c.perform_eq _ _).symm
      constructor
      · rw [List.map_append, Served.step, List.map_append]
        exact .snoc ih.1 (by rw [reduceOption_map_ofPointer]; exact hstep.1)
      · rw [← reduceOption_map_ofPointer, Served.step, List.map_append, List.reduceOption_append,
          reduceOption_map_ofPointer, List.map_singleton, List.reduceOption_singleton]
        exact hstep.2

/-! ## What callers see -/

/-- The word that the scan of a call starts with. -/
def Call.firstIndex (reservedStart : ℕ) (c : Call) : ℕ :=
  (c.start reservedStart - reservedStart) / pageSize / 64

/-- The pointer `a` is what a call should return when `earlier` were handed out: the lowest
of the other frames from its first word on, and null exactly if there is none. -/
structure Lowest (reservedStart : ℕ) (earlier : List ℕ) (c : Call) (a : ℕ) : Prop where
  isLeast (h : a ≠ 0) :
    IsLeast (framesFrom reservedStart (c.firstIndex reservedStart) \ {x | x ∈ earlier}) a
  null_iff : a = 0 ↔
    framesFrom reservedStart (c.firstIndex reservedStart) ⊆ {x | x ∈ earlier}

theorem requested_eq (hle : reservedStart ≤ memStart) (c : Call) :
    requested reservedStart c = framesFrom reservedStart (c.firstIndex reservedStart) := by
  have hmem : memStart < 2 ^ 64 := by decide
  have hfirst : firstWord reservedStart (c.start reservedStart) = c.firstIndex reservedStart := by
    cases c with
    | pageTable => exact firstWord_of_le (Nat.le_refl _) (by simp only [Call.start]; omega)
    | page => exact firstWord_of_le hle hmem
  rw [requested, hfirst]

theorem lowest_of_answer {earlier : List ℕ} {c : Call} {a : ℕ} (hle : reservedStart ≤ memStart)
    (h : LeastFirst.Answer earlier (requested reservedStart c) (ofPointer a)) :
    Lowest reservedStart earlier c a := by
  rw [requested_eq hle] at h
  by_cases ha : a = 0
  · rw [ofPointer, if_pos ha] at h
    exact ⟨fun hne => absurd ha hne, fun _ => h, fun _ => ha⟩
  · rw [ofPointer, if_neg ha] at h
    refine ⟨fun _ => h, fun hzero => absurd hzero ha, ?_⟩
    intro hall
    exact absurd (hall h.1.1) h.1.2

/-- A frame that a call may hand out. -/
theorem bounds_of_mem_framesFrom (halign : reservedStart % pageSize = 0) {i a : ℕ}
    (ha : a ∈ framesFrom reservedStart i) :
    a % pageSize = 0 ∧ reservedStart ≤ a ∧ a < reservedStart + 128 * 2 ^ 20 := by
  obtain ⟨f, hf, rfl⟩ := ha
  have hlt := hf.2
  simp only [frameAddr, pageSize, frameCount, bitmapWords] at *
  omega

/-- After `pmm_init`, in every sequence of calls of the two allocators: each call returns the
lowest frame from its first word on that no call before it returned, or null exactly if
these are exhausted. The frames are distinct, aligned and within 128 MB, and a bit of the
bitmap is clear exactly if its frame was returned. -/
theorem runCalls_lowest (hpos : 0 < reservedStart) (halign : reservedStart % pageSize = 0)
    (hle : reservedStart ≤ memStart) (calls : List Call) :
    let s := runCalls reservedStart calls
    s.returned.length = calls.length ∧
      (∀ (i : ℕ) (c : Call) (a : ℕ), calls[i]? = some c → s.returned[i]? = some a →
        Lowest reservedStart (handedOut (s.returned.take i)) c a) ∧
      (handedOut s.returned).Nodup ∧
      (∀ a ∈ handedOut s.returned,
        a % pageSize = 0 ∧ reservedStart ≤ a ∧ a < reservedStart + 128 * 2 ^ 20) ∧
      ∀ i < bitmapWords, ∀ k < 64, (s.bitmap i).getLsbD k = false ↔
        frameAddr reservedStart (64 * i + (63 - k)) ∈ handedOut s.returned := by
  intro s
  obtain ⟨hrun, hagrees⟩ := runCalls_leastFirst hpos calls
  refine ⟨?_, ?_, ?_, ?_, ?_⟩
  · simpa using hrun.length_eq
  · intro i c a hc ha
    have hanswer := hrun.answer (i := i) (by rw [List.getElem?_map, hc]; rfl)
      (by rw [List.getElem?_map, ha]; rfl)
    rw [← List.map_take, reduceOption_map_ofPointer] at hanswer
    exact lowest_of_answer hle hanswer
  · rw [← reduceOption_map_ofPointer]
    exact hrun.nodup
  · intro a ha
    rw [← reduceOption_map_ofPointer] at ha
    obtain ⟨t, ht, hat⟩ := hrun.exists_mem ha
    obtain ⟨c, -, rfl⟩ := List.mem_map.mp ht
    exact bounds_of_mem_framesFrom halign hat
  · intro i hi k hk
    have hword : (64 * i + (63 - k)) / 64 = i := by omega
    have hbit : 63 - (64 * i + (63 - k)) % 64 = k := by omega
    rw [← hagrees _ (by simp only [frameCount]; omega), isFree, hword, hbit]

/-- Two frames for data and a page table between them, above an image that ends at
`0x110000`. -/
example : (runCalls 0x110000 [.page, .pageTable, .page]).returned =
    [0x1d0000, 0x110000, 0x1d1000] := by
  decide +kernel

/-- The calls of the example above. -/
theorem runCalls_lowest_threeCalls :
    0 < 0x110000 ∧ 0x110000 % pageSize = 0 ∧ 0x110000 ≤ memStart ∧
      (handedOut (runCalls 0x110000 [.page, .pageTable, .page]).returned).Nodup := by
  have hpos : 0 < 0x110000 := by decide
  have halign : 0x110000 % pageSize = 0 := by decide
  have hle : 0x110000 ≤ memStart := by decide
  exact ⟨hpos, halign, hle,
    (runCalls_lowest hpos halign hle [.page, .pageTable, .page]).2.2.1⟩

end PMM
end BootableKernel
