import BootableKernel.Memory.Boot
import Mathlib.Tactic.FinCases

/-!
# The processor's walk of the page tables

What the processor makes of memory in long mode, for any contents of the tables: entries
may be large pages, and bits that must be zero make an access fault. The kernel's own
reading of its tables, in `Paging`, need not look at these.

`setup_paging` runs in 32-bit mode. It stores the lower halves of 515 entries and leaves
the other halves, and the other entries, as memory held them; the tables are in `.bss`,
which nothing clears. `identity_iff` says for which former contents the tables are what
they should be.
-/

namespace BootableKernel

/-! ## Entries -/

/-- Bit `k` of an entry. -/
def entryBit (k : ℕ) (e : Entry) : Bool := e.toNat / 2 ^ k % 2 = 1

/-- The address in bits `shift` to 51. -/
def pageBase (shift : ℕ) (e : Entry) : ℕ := e.toNat % 2 ^ 52 / 2 ^ shift * 2 ^ shift

/-- The frame address of an entry that designates a table or a page of 4 KB. -/
def physicalFrame (e : Entry) : ℕ := pageBase 12 e

/-- What differs between processors. -/
structure Mmu where
  /-- The width of physical addresses. -/
  maxPhyAddr : ℕ
  gigabytePages : Bool
  ge : 32 ≤ maxPhyAddr
  le : maxPhyAddr ≤ 52

/-- What an entry designates. -/
inductive Designation
  | nothing
  | table
  | page
  deriving DecidableEq

namespace Mmu

/-- Present, and without address bits that the processor does not have. -/
def accepts (M : Mmu) (e : Entry) : Bool :=
  entryBit 0 e && decide (e.toNat % 2 ^ 52 < 2 ^ M.maxPhyAddr)

/-- What an entry designates in a table for the address bits from `shift` on. -/
def designates (M : Mmu) (shift : ℕ) (e : Entry) : Designation :=
  if !M.accepts e then .nothing
  else if shift = 12 then .page
  else if !entryBit 7 e then .table
  else if (shift = 21 ∨ shift = 30 ∧ M.gigabytePages) ∧ e.toNat % 2 ^ shift / 2 ^ 13 = 0 then .page
  else .nothing

/-- The walk for the address `v` from table `t` on, through tables for the address bits from
these shifts on: the physical address, and whether it can be written to. -/
def walk (M : Mmu) (m : ℕ → Index → Entry) (v : ℕ) : List ℕ → ℕ → Bool → Option (ℕ × Bool)
  | [], _, _ => none
  | shift :: shifts, t, w =>
      let e := m t (indexAt shift v)
      match M.designates shift e with
      | .nothing => none
      | .page => some (pageBase shift e + v % 2 ^ shift, w && entryBit 1 e)
      | .table => M.walk m v shifts (physicalFrame e) (w && entryBit 1 e)

/-- The shifts of the last `n` levels. -/
def shifts : ℕ → List ℕ
  | 0 => []
  | n + 1 => (12 + 9 * n) :: shifts n

/-- Where the 48-bit address `v` leads. -/
def lookup (M : Mmu) (m : ℕ → Index → Entry) (root v : ℕ) : Option (ℕ × Bool) :=
  M.walk m v (shifts 4) root true

end Mmu

/-! ## What `setup_paging` should do -/

/-- Where the four tables are: in whole frames below 2 MB. -/
structure TableBase where
  base : ℕ
  aligned : base % 4096 = 0
  low : base + 0x4000 ≤ 0x200000

/-- Memory has these contents in the four tables. -/
def TableBase.Holds (B : TableBase) (ram : ℕ → Index → Entry) (T : Fin 4 → Index → Entry) : Prop :=
  ∀ d i, ram (B.base + 0x1000 * d.val) i = T d i

/-- The first 2 MB are mapped to themselves and can be written to, and nothing else is
mapped. -/
def IdentityMapped (M : Mmu) (m : ℕ → Index → Entry) (root : ℕ) : Prop :=
  (∀ v < 0x200000, M.lookup m root v = some (v, true)) ∧
    ∀ v, 0x200000 ≤ v → v < 2 ^ 48 → M.lookup m root v = none

/-- No address bit is set in the upper half of the entry. -/
def HighClear (e : Entry) : Prop := e.toNat % 2 ^ 52 < 2 ^ 32

instance (e : Entry) : Decidable (HighClear e) := inferInstanceAs (Decidable (_ < _))

/-- Tables that `setup_paging` completes to an identity map of the first 2 MB. -/
structure Clean (M : Mmu) (T : Fin 4 → Index → Entry) : Prop where
  /-- The upper halves of the entries it writes. -/
  links : ∀ d : Fin 3, HighClear (T d.castSucc 0)
  pages : ∀ i, HighClear (T 3 i)
  /-- The entries of the directories that it does not write. -/
  others : ∀ d : Fin 3, ∀ j ≠ 0, M.designates (39 - 9 * d.val) (T d.castSucc j) = .nothing

/-! ## Which entries designate something -/

namespace Mmu
variable {M : Mmu}

theorem accepts_iff {e : Entry} :
    M.accepts e = true ↔ entryBit 0 e = true ∧ e.toNat % 2 ^ 52 < 2 ^ M.maxPhyAddr := by
  rw [accepts, Bool.and_eq_true, decide_eq_true_eq]

theorem designates_ne_page {shift : ℕ} {e : Entry} (h7 : entryBit 7 e = false) (hs : shift ≠ 12) :
    M.designates shift e ≠ .page := by
  rw [designates, if_neg hs, h7]
  split <;> simp

@[simp] theorem designates_zero (shift : ℕ) : M.designates shift 0 = .nothing := rfl

/-- A small entry that is accepted designates something at every level. -/
theorem designates_of_accepts {shift : ℕ} {e : Entry} (ha : M.accepts e = true)
    (h7 : entryBit 7 e = false) :
    M.designates shift e = if shift = 12 then .page else .table := by
  rw [designates, ha, h7]
  rfl

theorem accepts_of_designates {shift : ℕ} {e : Entry} (h : M.designates shift e ≠ .nothing) :
    M.accepts e = true := by
  by_contra hno
  rw [designates, Bool.eq_false_iff.mpr hno] at h
  exact h rfl

/-- A frame the processor can address. -/
structure Usable (M : Mmu) (t : ℕ) : Prop where
  aligned : t % 4096 = 0
  lt : t < 2 ^ M.maxPhyAddr

theorem usable_physicalFrame {e : Entry} (h : M.accepts e = true) : M.Usable (physicalFrame e) := by
  rw [accepts_iff] at h
  have hle : physicalFrame e ≤ e.toNat % 2 ^ 52 := Nat.div_mul_le_self _ _
  refine ⟨?_, lt_of_le_of_lt hle h.2⟩
  rw [physicalFrame, pageBase]
  exact Nat.mul_mod_left _ _

end Mmu

/-! ## Halves of entries -/

theorem toNat_setLow (e : Entry) (value : ℕ) :
    (setLow e value).toNat = e.toNat / 2 ^ 32 * 2 ^ 32 + value % 2 ^ 32 := by
  have hlt := Nat.mod_lt value (show 0 < 2 ^ 32 by decide)
  have hhigh : (e &&& 0xffffffff00000000).toNat = e.toNat / 2 ^ 32 * 2 ^ 32 := by
    have he := e.isLt
    rw [toNat_and_field e (show _ = (2 ^ 32 - 1) * 2 ^ 32 by decide)]
    omega
  rw [setLow, BitVec.toNat_or, hhigh, BitVec.toNat_ofNat, Nat.mod_eq_of_lt (by omega),
    Nat.mul_comm, Nat.two_pow_add_eq_or_of_lt hlt]

section Stored
variable {e : Entry} {a : ℕ} (ha : a % 4096 = 0) (hlt : a + 3 < 2 ^ 32)
include ha hlt

/-- The address bits of an entry that was stored: those in the upper half are as before. -/
theorem stored_mod :
    (setLow e (a + 3)).toNat % 2 ^ 52 = e.toNat % 2 ^ 52 / 2 ^ 32 * 2 ^ 32 + (a + 3) := by
  rw [toNat_setLow]
  omega

omit hlt in
theorem stored_bits : entryBit 0 (setLow e (a + 3)) = true ∧
    entryBit 1 (setLow e (a + 3)) = true ∧ entryBit 7 (setLow e (a + 3)) = false := by
  simp only [entryBit, toNat_setLow, decide_eq_true_eq, decide_eq_false_iff_not]
  omega

theorem physicalFrame_stored :
    physicalFrame (setLow e (a + 3)) = e.toNat % 2 ^ 52 / 2 ^ 32 * 2 ^ 32 + a := by
  rw [physicalFrame, pageBase, stored_mod ha hlt]
  omega

theorem physicalFrame_stored_of_clear (h : HighClear e) :
    physicalFrame (setLow e (a + 3)) = a := by
  rw [physicalFrame_stored ha hlt]
  rw [HighClear] at h
  omega

theorem accepts_stored (M : Mmu) (h : HighClear e) : M.accepts (setLow e (a + 3)) = true := by
  have hM : 2 ^ 32 ≤ 2 ^ M.maxPhyAddr := Nat.pow_le_pow_right (by decide) M.ge
  rw [HighClear] at h
  rw [Mmu.accepts_iff, stored_mod ha hlt]
  refine ⟨(stored_bits ha).1, ?_⟩
  omega

theorem designates_stored (M : Mmu) (h : HighClear e) (shift : ℕ) :
    M.designates shift (setLow e (a + 3)) = if shift = 12 then .page else .table :=
  Mmu.designates_of_accepts (accepts_stored ha hlt M h) (stored_bits ha).2.2

/-- With address bits in the upper half, the entry designates nothing, or something above
4 GB. -/
theorem stored_high (h : ¬ HighClear e) : 2 ^ 32 ≤ physicalFrame (setLow e (a + 3)) := by
  rw [HighClear] at h
  rw [physicalFrame_stored ha hlt]
  omega

end Stored

/-! ## The tables after `setup_paging` -/

section Setup
variable {B : TableBase} {ram : ℕ → Index → Entry} {T : Fin 4 → Index → Entry}

theorem or_three {a : ℕ} (ha : a % 4096 = 0) : a ||| 3 = a + 3 := by
  have h := Nat.two_pow_add_eq_or_of_lt (show 3 < 2 ^ 12 by decide) (a / 4096)
  rw [show 2 ^ 12 * (a / 4096) = a by omega] at h
  exact h.symm

/-- The directories. -/
theorem setupPaging_link (h : B.Holds ram T) (d : Fin 3) (i : Index) :
    setupPaging B.base ram (B.base + 0x1000 * d.val) i =
      if i = 0 then setLow (T d.castSucc 0) (B.base + 0x1000 * (d.val + 1) + 3)
      else T d.castSucc i := by
  have hal := B.aligned
  have hd := d.isLt
  have hT : ∀ j, ram (B.base + 0x1000 * d.val) j = T d.castSucc j := h d.castSucc
  simp only [setupPaging]
  rw [Boot.foldl_setEntry _ _ (fun i e => setLow e (0x3 + 0x1000 * i.val)) _
    (List.nodup_finRange 512), if_neg (by omega), or_three (by omega), or_three (by omega),
    or_three (by omega)]
  by_cases hi : i = 0
  · subst hi
    rw [if_pos rfl, ← hT]
    fin_cases d <;> simp [Radix.setEntry]
  · rw [if_neg hi, ← hT]
    simp [Radix.setEntry, hi]

/-- The page table. -/
theorem setupPaging_page (h : B.Holds ram T) (i : Index) :
    setupPaging B.base ram (B.base + 0x3000) i = setLow (T 3 i) (0x1000 * i.val + 3) := by
  have hT : ram (B.base + 0x3000) i = T 3 i := h 3 i
  simp only [setupPaging]
  rw [Boot.foldl_setEntry _ _ (fun i e => setLow e (0x3 + 0x1000 * i.val)) _
    (List.nodup_finRange 512), if_pos ⟨rfl, List.mem_finRange i⟩, ← hT, Nat.add_comm 3]
  simp [Radix.setEntry]

/-- All other frames. -/
theorem setupPaging_other {s : ℕ} (hs : ∀ d < 4, s ≠ B.base + 0x1000 * d) (i : Index) :
    setupPaging B.base ram s i = ram s i := by
  have h₀ := hs 0 (by decide)
  have h₁ := hs 1 (by decide)
  have h₂ := hs 2 (by decide)
  have h₃ := hs 3 (by decide)
  simp only [setupPaging]
  rw [Boot.foldl_setEntry _ _ (fun i e => setLow e (0x3 + 0x1000 * i.val)) _
    (List.nodup_finRange 512), if_neg fun hc => h₃ hc.1]
  simp only [Nat.mul_zero, Nat.add_zero, Nat.mul_one] at h₀ h₁
  simp [Radix.setEntry, h₀, h₁, h₂]

end Setup

/-! ## Walks -/

namespace Mmu

section Walk
variable {M : Mmu} {m : ℕ → Index → Entry} {v shift t : ℕ} {shifts : List ℕ} {w : Bool}

theorem walk_nothing (h : M.designates shift (m t (indexAt shift v)) = .nothing) :
    M.walk m v (shift :: shifts) t w = none := by
  rw [walk, h]

theorem walk_page (h : M.designates shift (m t (indexAt shift v)) = .page) :
    M.walk m v (shift :: shifts) t w = some (pageBase shift (m t (indexAt shift v)) + v % 2 ^ shift,
      w && entryBit 1 (m t (indexAt shift v))) := by
  rw [walk, h]

theorem walk_table (h : M.designates shift (m t (indexAt shift v)) = .table) :
    M.walk m v (shift :: shifts) t w =
      M.walk m v shifts (physicalFrame (m t (indexAt shift v)))
        (w && entryBit 1 (m t (indexAt shift v))) := by
  rw [walk, h]

end Walk

theorem shifts_eq (d : Fin 3) : shifts (4 - d.val) = (39 - 9 * d.val) :: shifts (3 - d.val) := by
  fin_cases d <;> rfl

theorem indexAt_eq_iff {k v : ℕ} {i : Index} : indexAt k v = i ↔ v / 2 ^ k % 512 = i.val :=
  Fin.ext_iff

end Mmu

section Descent
variable {M : Mmu} {B : TableBase} {ram : ℕ → Index → Entry} {T : Fin 4 → Index → Entry}

/-- Through entry 0 of a directory. -/
theorem walk_descend (h : B.Holds ram T) (d : Fin 3) (hclear : HighClear (T d.castSucc 0)) {v : ℕ}
    (hidx : indexAt (39 - 9 * d.val) v = 0) :
    M.walk (setupPaging B.base ram) v (Mmu.shifts (4 - d.val)) (B.base + 0x1000 * d.val) true =
      M.walk (setupPaging B.base ram) v (Mmu.shifts (3 - d.val)) (B.base + 0x1000 * (d.val + 1))
        true := by
  have hal := B.aligned
  have hlow := B.low
  have hd := d.isLt
  have hnext : (B.base + 0x1000 * (d.val + 1)) % 4096 = 0 := by omega
  have hlt : B.base + 0x1000 * (d.val + 1) + 3 < 2 ^ 32 := by omega
  have hentry := setupPaging_link h d (indexAt (39 - 9 * d.val) v)
  rw [if_pos hidx] at hentry
  rw [Mmu.shifts_eq, Mmu.walk_table, hentry, physicalFrame_stored_of_clear hnext hlt hclear,
    (stored_bits hnext).2.1]
  · rfl
  · rw [hentry, designates_stored hnext hlt M hclear, if_neg (by omega)]

/-- An address with leading zeros leads to the table for the rest of its bits. -/
theorem lookup_eq_walk (h : B.Holds ram T) {d : ℕ} (hd : d ≤ 3)
    (hclear : ∀ k : Fin 3, k.val < d → HighClear (T k.castSucc 0)) {v : ℕ}
    (hv : v < 2 ^ (48 - 9 * d)) :
    M.lookup (setupPaging B.base ram) B.base v =
      M.walk (setupPaging B.base ram) v (Mmu.shifts (4 - d)) (B.base + 0x1000 * d) true := by
  induction d with
  | zero => rfl
  | succ d ih =>
      have hpow : 2 ^ (48 - 9 * (d + 1)) ≤ 2 ^ (48 - 9 * d) :=
        Nat.pow_le_pow_right (by decide) (by omega)
      have hidx : indexAt (39 - 9 * d) v = 0 := by
        rw [Mmu.indexAt_eq_iff, Nat.div_eq_of_lt]
        · rfl
        · rw [show 39 - 9 * d = 48 - 9 * (d + 1) by omega]
          exact hv
      rw [ih (by omega) (fun k hk => hclear k (by omega)) (by omega),
        walk_descend h ⟨d, by omega⟩ (hclear ⟨d, by omega⟩ (by simp)) hidx,
        show 4 - (d + 1) = 3 - d by omega]

/-- **Clean tables are completed to the identity map.** -/
theorem Clean.identityMapped (hT : Clean M T) (h : B.Holds ram T) :
    IdentityMapped M (setupPaging B.base ram) B.base := by
  have hlinks : ∀ k : Fin 3, HighClear (T k.castSucc 0) := hT.links
  constructor
  · intro v hv
    have hi := (indexAt 12 v).isLt
    have hentry := setupPaging_page h (indexAt 12 v)
    have hal : 0x1000 * (indexAt 12 v).val % 4096 = 0 := by omega
    have hlt : 0x1000 * (indexAt 12 v).val + 3 < 2 ^ 32 := by omega
    have haddr : 0x1000 * (indexAt 12 v).val + v % 2 ^ 12 = v := by
      simp only [indexAt]
      omega
    rw [lookup_eq_walk h le_rfl (fun k _ => hlinks k) hv]
    change M.walk (setupPaging B.base ram) v [12] (B.base + 0x3000) true = some (v, true)
    rw [Mmu.walk_page, hentry, (stored_bits hal).2.1, ← physicalFrame,
      physicalFrame_stored_of_clear hal hlt (hT.pages _), haddr]
    · rfl
    · rw [hentry, designates_stored hal hlt M (hT.pages _), if_pos rfl]
  · intro v hge hlt
    -- The level of the first index that is not zero.
    have hlevel : ∃ d : Fin 3, v < 2 ^ (48 - 9 * d.val) ∧ 2 ^ (39 - 9 * d.val) ≤ v := by
      by_cases h₂ : v < 2 ^ 30
      · exact ⟨2, h₂, hge⟩
      by_cases h₁ : v < 2 ^ 39
      · exact ⟨1, h₁, Nat.le_of_not_lt h₂⟩
      · exact ⟨0, hlt, Nat.le_of_not_lt h₁⟩
    obtain ⟨d, hupper, hlower⟩ := hlevel
    have hidx : indexAt (39 - 9 * d.val) v ≠ 0 := by
      have hd := d.isLt
      have hdiv : v / 2 ^ (39 - 9 * d.val) < 512 := by
        apply Nat.div_lt_of_lt_mul
        rw [show (512 : ℕ) = 2 ^ 9 from rfl, ← Nat.pow_add,
          show 39 - 9 * d.val + 9 = 48 - 9 * d.val by omega]
        exact hupper
      have hpos : 0 < v / 2 ^ (39 - 9 * d.val) := Nat.div_pos hlower (Nat.two_pow_pos _)
      rw [Ne, Mmu.indexAt_eq_iff, Nat.mod_eq_of_lt hdiv]
      exact Nat.ne_of_gt hpos
    have hentry := setupPaging_link h d (indexAt (39 - 9 * d.val) v)
    rw [if_neg hidx] at hentry
    rw [lookup_eq_walk h (by omega) (fun k _ => hlinks k) hupper, Mmu.shifts_eq, Mmu.walk_nothing]
    rw [hentry]
    exact hT.others d _ hidx

end Descent

/-! ## What else memory may hold -/

/-- Memory with these tables, and `rest` in all other frames. -/
def TableBase.fill (B : TableBase) (T : Fin 4 → Index → Entry) (rest : ℕ → Index → Entry) :
    ℕ → Index → Entry := fun s i =>
  if B.base ≤ s ∧ s < B.base + 0x4000 ∧ s % 4096 = 0 then T (Fin.ofNat 4 ((s - B.base) / 4096)) i
  else rest s i

section Fill
variable {B : TableBase} {T : Fin 4 → Index → Entry} {rest : ℕ → Index → Entry}

theorem TableBase.fill_holds : B.Holds (B.fill T rest) T := by
  intro d i
  have hal := B.aligned
  have hd := d.isLt
  rw [fill, if_pos (by omega), show (B.base + 0x1000 * d.val - B.base) / 4096 = d.val by omega]
  congr 1
  exact Fin.ext (Nat.mod_eq_of_lt hd)

theorem TableBase.fill_other {s : ℕ} (hs : ∀ d < 4, s ≠ B.base + 0x1000 * d) (i : Index) :
    setupPaging B.base (B.fill T rest) s i = rest s i := by
  rw [setupPaging_other hs, fill, if_neg]
  rintro ⟨hge, hlt, hal⟩
  have := B.aligned
  exact hs ((s - B.base) / 4096) (by omega) (by omega)

end Fill

namespace Mmu
variable {M : Mmu}

/-- If every frame links to another one, every table leads to some page. -/
theorem exists_mapped {m : ℕ → Index → Entry}
    (hm : ∀ t, M.Usable t → ∃ i, M.accepts (m t i) = true ∧ entryBit 7 (m t i) = false) (n : ℕ)
    {t : ℕ} (ht : M.Usable t) :
    ∃ r < 2 ^ (12 + 9 * (n + 1)), ∀ v w, v % 2 ^ (12 + 9 * (n + 1)) = r →
      M.walk m v (shifts (n + 1)) t w ≠ none := by
  induction n generalizing t with
  | zero =>
      obtain ⟨i, ha, h7⟩ := hm t ht
      refine ⟨i.val * 2 ^ 12, ?_, fun v w hv => ?_⟩
      · have := i.isLt
        omega
      · have hidx : indexAt 12 v = i := by
          rw [indexAt_eq_iff]
          omega
        change M.walk m v [12] t w ≠ none
        rw [walk_page]
        · simp
        · rw [hidx, designates_of_accepts ha h7, if_pos rfl]
  | succ n ih =>
      obtain ⟨i, ha, h7⟩ := hm t ht
      obtain ⟨r, hr, hwalk⟩ := ih (usable_physicalFrame ha)
      have hi := i.isLt
      have hpos : 0 < 2 ^ (12 + 9 * (n + 1)) := Nat.two_pow_pos _
      have hpow : 2 ^ (12 + 9 * (n + 1 + 1)) = 2 ^ (12 + 9 * (n + 1)) * 512 := by
        rw [show 12 + 9 * (n + 1 + 1) = 12 + 9 * (n + 1) + 9 by omega, Nat.pow_add]
      refine ⟨r + 2 ^ (12 + 9 * (n + 1)) * i.val, ?_, fun v w hv => ?_⟩
      · rw [hpow]
        calc r + 2 ^ (12 + 9 * (n + 1)) * i.val
            < 2 ^ (12 + 9 * (n + 1)) + 2 ^ (12 + 9 * (n + 1)) * i.val := Nat.add_lt_add_right hr _
          _ = 2 ^ (12 + 9 * (n + 1)) * (i.val + 1) :=
            (Nat.add_comm _ _).trans (Nat.mul_succ _ _).symm
          _ ≤ 2 ^ (12 + 9 * (n + 1)) * 512 := Nat.mul_le_mul_left _ hi
      · rw [hpow, Nat.mod_mul] at hv
        -- The quotient and the remainder by the size of the lower levels.
        have hrem : v % 2 ^ (12 + 9 * (n + 1)) = r := by
          have := congrArg (· % 2 ^ (12 + 9 * (n + 1))) hv
          simpa [Nat.add_mul_mod_self_left, Nat.mod_eq_of_lt hr] using this
        have hquot : v / 2 ^ (12 + 9 * (n + 1)) % 512 = i.val := by
          rw [hrem] at hv
          exact Nat.eq_of_mul_eq_mul_left hpos (Nat.add_left_cancel hv)
        have hidx : indexAt (12 + 9 * (n + 1)) v = i := indexAt_eq_iff.mpr hquot
        rw [shifts, walk_table, hidx]
        · exact hwalk v _ hrem
        · rw [hidx, designates_of_accepts ha h7, if_neg (by omega)]

end Mmu

/-- Frames that link to themselves. -/
def selfLinked : ℕ → Index → Entry := fun s _ => BitVec.ofNat 64 (s + 3)

theorem selfLinked_spec {M : Mmu} {t : ℕ} (ht : M.Usable t) {i : Index} :
    M.accepts (selfLinked t i) = true ∧ entryBit 7 (selfLinked t i) = false := by
  obtain ⟨hal, hlt⟩ := ht
  have hpow : 2 ^ M.maxPhyAddr = 4096 * 2 ^ (M.maxPhyAddr - 12) := by
    have hM := M.ge
    rw [show 4096 = 2 ^ 12 from rfl, ← Nat.pow_add, Nat.add_sub_cancel' (by omega)]
  have hmax : 2 ^ M.maxPhyAddr ≤ 2 ^ 52 := Nat.pow_le_pow_right (by decide) M.le
  have hfit : t + 3 < 2 ^ M.maxPhyAddr := by omega
  have hnat : (selfLinked t i).toNat = t + 3 := by
    rw [selfLinked, BitVec.toNat_ofNat, Nat.mod_eq_of_lt (by omega)]
  rw [Mmu.accepts_iff, entryBit, entryBit, hnat]
  simp only [decide_eq_true_eq, decide_eq_false_iff_not]
  omega

section Exact
variable {M : Mmu} {B : TableBase} {T : Fin 4 → Index → Entry}
  (hall : ∀ ram, B.Holds ram T → IdentityMapped M (setupPaging B.base ram) B.base)
include hall

/-- A directory above 4 GB need not be there. -/
theorem highClear_links (d : Fin 3) : HighClear (T d.castSucc 0) := by
  obtain ⟨d, hd⟩ := d
  induction d using Nat.strong_induction_on with
  | _ d ih =>
      by_contra hhigh
      have hal := B.aligned
      have hlow := B.low
      have hnext : (B.base + 0x1000 * (d + 1)) % 4096 = 0 := by omega
      have hlt : B.base + 0x1000 * (d + 1) + 3 < 2 ^ 32 := by omega
      have hzero : indexAt (39 - 9 * d) 0 = 0 := by
        rw [Mmu.indexAt_eq_iff, Nat.zero_div]
        rfl
      have hholds : B.Holds (B.fill T fun _ _ => 0) T := TableBase.fill_holds
      have hentry := setupPaging_link hholds ⟨d, hd⟩ (indexAt (39 - 9 * d) 0)
      rw [if_pos hzero] at hentry
      have hsome := (hall _ hholds).1 0 (by decide)
      rw [lookup_eq_walk hholds (le_of_lt hd) (fun k hk => ih k.val hk k.isLt) (Nat.two_pow_pos _),
        Mmu.shifts_eq ⟨d, hd⟩] at hsome
      cases hdes : M.designates (39 - 9 * d) (setLow (T (Fin.castSucc ⟨d, hd⟩) 0)
          (B.base + 0x1000 * (d + 1) + 3)) with
      | nothing =>
          rw [Mmu.walk_nothing (hentry ▸ hdes)] at hsome
          exact absurd hsome (by simp)
      | page => exact Mmu.designates_ne_page (stored_bits hnext).2.2 (by omega) hdes
      | table =>
          have hother : ∀ k < 4, physicalFrame (setLow (T (Fin.castSucc ⟨d, hd⟩) 0)
              (B.base + 0x1000 * (d + 1) + 3)) ≠ B.base + 0x1000 * k := by
            intro k hk
            have := stored_high hnext hlt hhigh
            omega
          have hshifts : Mmu.shifts (3 - d) = (12 + 9 * (2 - d)) :: Mmu.shifts (2 - d) := by
            rw [show 3 - d = 2 - d + 1 by omega]
            rfl
          rw [Mmu.walk_table (hentry ▸ hdes), hshifts, Mmu.walk_nothing] at hsome
          · exact absurd hsome (by simp)
          · rw [hentry, TableBase.fill_other hother]
            exact Mmu.designates_zero _

/-- A page above 4 GB is the wrong one. -/
theorem highClear_pages (i : Index) : HighClear (T 3 i) := by
  by_contra hhigh
  have hi := i.isLt
  have hal : 0x1000 * i.val % 4096 = 0 := by omega
  have hlt : 0x1000 * i.val + 3 < 2 ^ 32 := by omega
  have hidx : indexAt 12 (0x1000 * i.val) = i := by
    rw [Mmu.indexAt_eq_iff]
    omega
  have hholds : B.Holds (B.fill T fun _ _ => 0) T := TableBase.fill_holds
  have hentry := setupPaging_page hholds i
  have hsome := (hall _ hholds).1 (0x1000 * i.val) (by omega)
  rw [lookup_eq_walk hholds le_rfl (fun k _ => highClear_links hall k)
    (show 0x1000 * i.val < 2 ^ 21 by omega)] at hsome
  change M.walk _ _ [12] (B.base + 0x3000) true = _ at hsome
  cases hdes : M.designates 12 (setLow (T 3 i) (0x1000 * i.val + 3)) with
  | nothing =>
      rw [Mmu.walk_nothing (by rw [hidx, hentry, hdes])] at hsome
      exact absurd hsome (by simp)
  | page =>
      have hframe := stored_high hal hlt hhigh
      rw [Mmu.walk_page (by rw [hidx, hentry, hdes]), hidx, hentry, Option.some.injEq,
        Prod.mk.injEq, ← physicalFrame] at hsome
      omega
  | table =>
      rw [Mmu.designates] at hdes
      split at hdes
      · exact absurd hdes (by simp)
      · exact absurd hdes (by simp)

/-- Every frame links to another one: the tables among themselves, and all other frames to
themselves. -/
theorem exists_link {t : ℕ} (ht : M.Usable t) :
    ∃ i, M.accepts (setupPaging B.base (B.fill T selfLinked) t i) = true ∧
      entryBit 7 (setupPaging B.base (B.fill T selfLinked) t i) = false := by
  have hal := B.aligned
  have hlow := B.low
  have hholds : B.Holds (B.fill T selfLinked) T := TableBase.fill_holds
  refine ⟨0, ?_⟩
  by_cases htable : ∃ d < 4, t = B.base + 0x1000 * d
  · obtain ⟨d, hd, rfl⟩ := htable
    by_cases hlast : d < 3
    · have hnext : (B.base + 0x1000 * (d + 1)) % 4096 = 0 := by omega
      have hlt : B.base + 0x1000 * (d + 1) + 3 < 2 ^ 32 := by omega
      rw [setupPaging_link hholds ⟨d, hlast⟩, if_pos rfl]
      exact ⟨accepts_stored hnext hlt M (highClear_links hall ⟨d, hlast⟩), (stored_bits hnext).2.2⟩
    · obtain rfl : d = 3 := by omega
      rw [setupPaging_page hholds]
      exact ⟨accepts_stored (by decide) (by decide) M (highClear_pages hall 0),
        (stored_bits (by decide)).2.2⟩
  · have hother : ∀ d < 4, t ≠ B.base + 0x1000 * d := fun d hd he => htable ⟨d, hd, he⟩
    rw [TableBase.fill_other hother]
    exact selfLinked_spec ht

omit hall in
/-- The addresses that go through entry `j` of a directory, by what is left of them below it. -/
theorem exists_address (d : Fin 3) {j : Index} (hj : j ≠ 0) {r : ℕ} (hr : r < 2 ^ (39 - 9 * d.val)) :
    ∃ v, v % 2 ^ (39 - 9 * d.val) = r ∧ indexAt (39 - 9 * d.val) v = j ∧
      0x200000 ≤ v ∧ v < 2 ^ (48 - 9 * d.val) := by
  have hd := d.isLt
  have hjlt := j.isLt
  have hjpos : 0 < j.val := Nat.pos_of_ne_zero fun hz => hj (Fin.ext hz)
  have hpos : 0 < 2 ^ (39 - 9 * d.val) := Nat.two_pow_pos _
  refine ⟨r + 2 ^ (39 - 9 * d.val) * j.val, ?_, ?_, ?_, ?_⟩
  · rw [Nat.add_mul_mod_self_left, Nat.mod_eq_of_lt hr]
  · rw [Mmu.indexAt_eq_iff, Nat.add_mul_div_left _ _ hpos, Nat.div_eq_of_lt hr, Nat.zero_add,
      Nat.mod_eq_of_lt hjlt]
  · calc 0x200000 = 2 ^ 21 * 1 := rfl
      _ ≤ 2 ^ (39 - 9 * d.val) * j.val :=
        Nat.mul_le_mul (Nat.pow_le_pow_right (by decide) (by omega)) hjpos
      _ ≤ r + 2 ^ (39 - 9 * d.val) * j.val := Nat.le_add_left _ _
  · rw [show 48 - 9 * d.val = 39 - 9 * d.val + 9 by omega, Nat.pow_add]
    calc r + 2 ^ (39 - 9 * d.val) * j.val
        < 2 ^ (39 - 9 * d.val) + 2 ^ (39 - 9 * d.val) * j.val := Nat.add_lt_add_right hr _
      _ = 2 ^ (39 - 9 * d.val) * (j.val + 1) := (Nat.add_comm _ _).trans (Nat.mul_succ _ _).symm
      _ ≤ 2 ^ (39 - 9 * d.val) * 512 := Nat.mul_le_mul_left _ hjlt

/-- An entry of a directory that designates something leads on to a page. -/
theorem exists_walk (d : Fin 3) {j : Index} (hj : j ≠ 0)
    (hsome : M.designates (39 - 9 * d.val) (T d.castSucc j) ≠ .nothing) :
    ∃ r < 2 ^ (39 - 9 * d.val), ∀ v, v % 2 ^ (39 - 9 * d.val) = r →
      indexAt (39 - 9 * d.val) v = j →
      M.walk (setupPaging B.base (B.fill T selfLinked)) v (Mmu.shifts (4 - d.val))
        (B.base + 0x1000 * d.val) true ≠ none := by
  have hd := d.isLt
  have hshift : 39 - 9 * d.val = 12 + 9 * (2 - d.val + 1) := by omega
  have hentry := setupPaging_link (TableBase.fill_holds : B.Holds (B.fill T selfLinked) T) d j
  rw [if_neg hj] at hentry
  cases hdes : M.designates (39 - 9 * d.val) (T d.castSucc j) with
  | nothing => exact absurd hdes hsome
  | page =>
      refine ⟨0, Nat.two_pow_pos _, fun v _ hidx => ?_⟩
      rw [Mmu.shifts_eq, Mmu.walk_page (by rw [hidx, hentry, hdes])]
      simp
  | table =>
      obtain ⟨r, hr, hwalk⟩ := Mmu.exists_mapped (fun t => exists_link hall) (2 - d.val)
        (Mmu.usable_physicalFrame (Mmu.accepts_of_designates hsome))
      rw [← hshift] at hr hwalk
      refine ⟨r, hr, fun v hv hidx => ?_⟩
      rw [Mmu.shifts_eq, Mmu.walk_table (by rw [hidx, hentry, hdes]), hidx, hentry,
        show 3 - d.val = 2 - d.val + 1 by omega]
      exact hwalk v _ hv

/-- So there is none but the first. -/
theorem designates_others (d : Fin 3) {j : Index} (hj : j ≠ 0) :
    M.designates (39 - 9 * d.val) (T d.castSucc j) = .nothing := by
  by_contra hsome
  have hholds : B.Holds (B.fill T selfLinked) T := TableBase.fill_holds
  obtain ⟨r, hr, hwalk⟩ := exists_walk hall d hj hsome
  obtain ⟨v, hrem, hidx, hlower, hupper⟩ := exists_address d hj hr
  have hcanon : v < 2 ^ 48 :=
    lt_of_lt_of_le hupper (Nat.pow_le_pow_right (by decide) (by omega))
  have hnone := (hall _ hholds).2 v hlower hcanon
  rw [lookup_eq_walk hholds (le_of_lt d.isLt) (fun k _ => highClear_links hall k) hupper] at hnone
  exact hwalk v hrem hidx hnone

end Exact

/-- `setup_paging` maps the first 2 MB to themselves and nothing else, whatever memory holds
outside the tables, if and only if the tables were clean. -/
theorem identity_iff (M : Mmu) (B : TableBase) (T : Fin 4 → Index → Entry) :
    (∀ ram, B.Holds ram T → IdentityMapped M (setupPaging B.base ram) B.base) ↔ Clean M T := by
  constructor
  · intro hall
    exact ⟨highClear_links hall, highClear_pages hall, fun d j hj => designates_others hall d hj⟩
  · intro hT ram h
    exact hT.identityMapped h

/-- A processor with 36 address bits, and tables at 64 KB. -/
def typicalMmu : Mmu := ⟨36, false, by decide, by decide⟩

def sampleBase : TableBase := ⟨Boot.sample.base, Boot.sample.base_aligned, by decide⟩

/-- Tables that hold a large page in the second entry of `PDT`, and are clear otherwise. -/
def garbage : Fin 4 → Index → Entry := fun d i => if d = 2 ∧ i = 1 then 0x83 else 0

/-- That page stays. -/
theorem garbage_mapped : ¬ IdentityMapped typicalMmu
    (setupPaging sampleBase.base (sampleBase.fill garbage fun _ _ => 0)) sampleBase.base := by
  have hholds : sampleBase.Holds (sampleBase.fill garbage fun _ _ => 0) garbage :=
    TableBase.fill_holds
  have hclear : ∀ k : Fin 3, k.val < 2 → HighClear (garbage k.castSucc 0) := by decide
  have hidx : indexAt 21 0x200000 = 1 := by decide
  have hentry := setupPaging_link hholds 2 1
  intro h
  have hnone := h.2 0x200000 le_rfl (by decide)
  rw [lookup_eq_walk hholds (show 2 ≤ 3 by decide) hclear (by decide)] at hnone
  change typicalMmu.walk _ _ [21, 12] _ true = none at hnone
  rw [Mmu.walk_page] at hnone
  · exact absurd hnone (by simp)
  · rw [hidx]
    exact (congrArg (typicalMmu.designates 21) hentry).trans (by decide)

end BootableKernel
