import BootableKernel.Memory.PageTables
import Mathlib.Data.List.FinRange

/-!
# The boot page tables

`setup_paging` in `protected_mode.asm` fills the four consecutive tables of
`pagetables.asm`: one entry in each of the first three, and an identity map of the
first 2 MB in the last. It runs in 32-bit mode and stores the low half of each entry
only; the rest is what memory held before.

A `Boot` gathers what the kernel starts from: the address of the tables, the first
free page, and memory whose table frames are clear, as a loader that clears `.bss`
leaves them. `Boot.wellFormed` shows that the tables then form a tree of four.
-/

namespace BootableKernel

/-- `mov dword [entry], value`: the upper half of the entry stays. -/
def setLow (e : Entry) (value : ℕ) : Entry :=
  (e &&& 0xffffffff00000000) ||| BitVec.ofNat 64 (value % 2 ^ 32)

/-- `setup_paging` on memory `ram`, with `PML4T` at `base` and the other tables in the
frames after it. -/
def setupPaging (base : ℕ) (ram : ℕ → Index → Entry) : ℕ → Index → Entry :=
  let pdpt := base + 0x1000
  let pdt := base + 0x2000
  let pt := base + 0x3000
  let m := Radix.setEntry ram base 0 (setLow (ram base 0) (pdpt ||| 3))
  let m := Radix.setEntry m pdpt 0 (setLow (m pdpt 0) (pdt ||| 3))
  let m := Radix.setEntry m pdt 0 (setLow (m pdt 0) (pt ||| 3))
  (List.finRange 512).foldl
    (fun m i => Radix.setEntry m pt i (setLow (m pt i) (0x3 + 0x1000 * i.val))) m

/-- What the kernel starts from. -/
structure Boot where
  /-- `PML4T`. -/
  base : ℕ
  /-- `_FIRST_FREE_PAGE_`. -/
  reservedStart : ℕ
  /-- Memory before `setup_paging`. -/
  ram : ℕ → Index → Entry
  base_aligned : base % 4096 = 0
  /-- The tables are part of the image, which ends before the first free page. -/
  tables_low : base + 0x4000 ≤ reservedStart
  reserved_aligned : reservedStart % 4096 = 0
  reserved_low : reservedStart + 0x40000 ≤ 0x200000
  cleared : ∀ d < 4, ∀ i, ram (base + 0x1000 * d) i = 0

namespace Boot

/-- A small image: tables at 64 KB, first free page at 128 KB, memory clear. -/
def sample : Boot where
  base := 0x10000
  reservedStart := 0x20000
  ram := fun _ _ => 0
  base_aligned := by decide
  tables_low := by decide
  reserved_aligned := by decide
  reserved_low := by decide
  cleared := fun _ _ _ => rfl

/-- The boot constants of the memory managers. -/
def platform (B : Boot) : Platform := ⟨B.base, B.reservedStart⟩

/-- The paging state after `setup_paging` and `pmm_init`. -/
def paging (B : Boot) : Paging := ⟨PMM.init, setupPaging B.base B.ram, [], []⟩

theorem platform_valid (B : Boot) : B.platform.Valid :=
  ⟨by have := B.tables_low; simp only [platform]; omega, B.reserved_aligned, B.reserved_low⟩

theorem setLow_zero {value : ℕ} (h : value < 2 ^ 32) :
    setLow 0#64 value = BitVec.ofNat 64 value := by
  rw [setLow, Nat.mod_eq_of_lt h]
  simp

/-- The entry stored for a directory is a link with supervisor flags. -/
theorem setLow_link {a : ℕ} (h : a < 2 ^ 32) :
    setLow 0#64 (a ||| 3) = BitVec.ofNat 64 a ||| mapFlags true := by
  rw [setLow_zero (Nat.or_lt_two_pow h (by omega)), BitVec.ofNat_or]
  rfl

theorem foldl_setEntry (m : ℕ → Index → Entry) (t : ℕ) (f : Index → Entry → Entry)
    (l : List Index) (hl : l.Nodup) (s : ℕ) (j : Index) :
    l.foldl (fun m i => Radix.setEntry m t i (f i (m t i))) m s j =
      if s = t ∧ j ∈ l then f j (m t j) else m s j := by
  induction l generalizing m with
  | nil => simp
  | cons i l ih =>
      obtain ⟨hi, hl⟩ := List.nodup_cons.mp hl
      rw [List.foldl_cons, ih _ hl]
      by_cases hs : s = t
      · subst hs
        by_cases hj : j = i
        · subst hj
          simp [hi]
        · have hne : ¬ (s = s ∧ j = i) := fun h => hj h.2
          simp [Radix.setEntry_of_ne _ _ hne, hj]
      · have hne : ¬ (s = t ∧ j = i) := fun h => hs h.1
        simp [Radix.setEntry_of_ne _ _ hne, hs]

/-- The tables the boot code leaves: a chain of three directories over one page table. -/
theorem mem_table (B : Boot) {d : ℕ} (hd : d < 3) (i : Index) :
    B.paging.mem (B.base + 0x1000 * d) i =
      if i = 0 then BitVec.ofNat 64 (B.base + 0x1000 * (d + 1)) ||| mapFlags true else 0 := by
  have hlow := B.tables_low
  have hres := B.reserved_low
  simp only [paging, setupPaging]
  rw [foldl_setEntry _ _ (fun i e => setLow e (0x3 + 0x1000 * i.val)) _ (List.nodup_finRange 512),
    if_neg (by omega)]
  have h0 : ∀ i, B.ram B.base i = 0#64 := B.cleared 0 (by omega)
  have h1 : ∀ i, B.ram (B.base + 4096) i = 0#64 := B.cleared 1 (by omega)
  have h2 : ∀ i, B.ram (B.base + 8192) i = 0#64 := B.cleared 2 (by omega)
  have hcases : d = 0 ∨ d = 1 ∨ d = 2 := by omega
  by_cases hi : i = 0
  · subst hi
    rcases hcases with rfl | rfl | rfl
    · simp [Radix.setEntry, h0, setLow_link (show B.base + 4096 < 2 ^ 32 by omega)]
    · simp [Radix.setEntry, h1, setLow_link (show B.base + 8192 < 2 ^ 32 by omega)]
    · simp [Radix.setEntry, h2, setLow_link (show B.base + 12288 < 2 ^ 32 by omega)]
  · rcases hcases with rfl | rfl | rfl <;> simp [Radix.setEntry, hi, h0, h1, h2]

/-- The last boot table maps its 512 pages to themselves. -/
theorem mem_pageTable (B : Boot) (i : Index) :
    B.paging.mem (B.base + 0x1000 * 3) i = BitVec.ofNat 64 (0x3 + 0x1000 * i.val) := by
  have h3 : B.ram (B.base + 12288) i = 0#64 := B.cleared 3 (by omega) i
  have hi := i.isLt
  simp only [paging, setupPaging]
  rw [foldl_setEntry _ _ (fun i e => setLow e (0x3 + 0x1000 * i.val)) _ (List.nodup_finRange 512),
    if_pos ⟨by omega, List.mem_finRange i⟩]
  simp [Radix.setEntry, h3, setLow_zero (show 3 + 4096 * i.val < 2 ^ 32 by omega)]

theorem target_link (B : Boot) {n : ℕ} (hn : n < 4) :
    target (BitVec.ofNat 64 (B.base + 0x1000 * n) ||| mapFlags true) =
      some (B.base + 0x1000 * n) := by
  have h₁ := B.tables_low
  have h₂ := B.reserved_low
  have h₃ := B.base_aligned
  rw [target_of_present (isPresent_or_flags _ _), frameOf_or_flags,
    frameOf_ofNat (by omega) (by omega)]

/-- Paths through the boot tables follow index `0`. -/
theorem walk_boot (B : Boot) {q : List Index} (hq : q.length ≤ 3) :
    Radix.walk target B.paging.mem B.base q =
      if ∀ i ∈ q, i = 0 then some (B.base + 0x1000 * q.length) else none := by
  induction q using List.reverseRecOn with
  | nil => simp
  | append_singleton q j ih =>
      have hq' : q.length < 3 := by simp at hq; omega
      rw [Radix.walk_snoc, ih (by omega)]
      by_cases hz : ∀ i ∈ q, i = 0
      · rw [if_pos hz]
        simp only [Option.bind_some]
        rw [B.mem_table hq']
        by_cases hj : j = 0
        · subst hj
          have hall : ∀ i ∈ q ++ [0], i = 0 := by
            intro i hi
            rcases List.mem_append.mp hi with h | h
            · exact hz i h
            · simpa using h
          rw [if_pos rfl, if_pos hall, B.target_link (by omega), List.length_append]
          rfl
        · have hall : ¬ ∀ i ∈ q ++ [j], i = 0 := fun h => hj (h j (by simp))
          rw [if_neg hj, if_neg hall, target_zero]
      · have hall : ¬ ∀ i ∈ q ++ [j], i = 0 := fun h =>
          hz fun i hi => h i (List.mem_append_left _ hi)
        rw [if_neg hz, if_neg hall]
        rfl

/-- The boot tables form a tree, and the allocator's frames lie above them. -/
theorem wellFormed (B : Boot) : B.paging.WellFormed B.platform := by
  refine ⟨?_, ?_⟩
  · intro p q t hp hq h₁ h₂
    rw [platform, B.walk_boot hp] at h₁
    rw [platform, B.walk_boot hq] at h₂
    split at h₁ <;> split at h₂ <;> simp only [Option.some.injEq, reduceCtorEq] at h₁ h₂
    rename_i hzp hzq
    have hlen : p.length = q.length := by omega
    rw [List.eq_replicate_of_mem hzp, List.eq_replicate_of_mem hzq, hlen]
  · intro f _ _ q hq hc
    rw [platform, B.walk_boot hq] at hc
    split at hc
    · have h₁ := B.tables_low
      rw [Option.some.injEq] at hc
      simp only [PMM.frameAddr, pageSize] at hc
      omega
    · exact absurd hc (by simp)

end Boot
end BootableKernel
