import BootableKernel.Heap.Malloc

/-!
# The largest request

`allocate_new_page` computes the number of pages in 32 bits, and a block without a minor
serves any request, whatever its size. So on an empty heap `kmalloc` answers every request
for which it gets pages. `kmalloc_holds_iff` says for which of them these pages are enough:
those of which 112 bytes more are below 4 GiB. A larger one is answered with a pointer to pages that
do not hold it.
-/

namespace BootableKernel

namespace Liballoc

variable {σ : Type}

/-- The page hooks hand out whole pages, and leave the heap alone. -/
structure Plain (K : Hooks σ) : Prop where
  aligned : ∀ n s, (K.alloc n s).1 % pageBytes = 0
  bound : ∀ n s, (K.alloc n s).1 ≠ 0 → (K.alloc n s).1 + n * pageBytes ≤ 2 ^ 64
  leaves : ∀ n s, (K.alloc n s).2 = { s with pager := (K.alloc n s).2.pager }

/-- The bytes that `kmalloc` looks for: a request that takes none is made one of one byte. -/
def sizeOf (req : ℕ) : ℕ := if sizeFor req = 0 then sizeFor 1 else sizeFor req

theorem pagesFor_eq (size : ℕ) :
    pagesFor size = max 16 (((size + 80) % 2 ^ 32 + 4095) / 4096) := by
  have hst : ((size % 2 ^ 32 + 40) % 2 ^ 32 + 40) % 2 ^ 32 = (size + 80) % 2 ^ 32 := by omega
  simp only [pagesFor, recordSize_eq, pageBytes_eq, pageCount, hst]
  split <;> split <;> omega

/-- The pages of a new block hold a request if it is not too large. -/
theorem pagesFor_sizeOf {req : ℕ} (h : req < 2 ^ 64) :
    req + 96 ≤ pagesFor (sizeOf req) * pageBytes ↔ req + 112 < 2 ^ 32 := by
  have hsize : sizeOf req = req + 32 ∨ 2 ^ 64 ≤ req + 32 ∧ sizeOf req ≤ 33 := by
    have hfor : sizeFor req = (req + 32) % 2 ^ 64 := rfl
    have hone : sizeFor 1 = 33 := rfl
    rw [sizeOf]
    split <;> omega
  rw [pagesFor_eq, pageBytes_eq]
  omega

section
variable {K : Hooks σ} {s s' : Heap σ} {size req fuel maj q : ℕ}

/-- A block without a minor serves any request. -/
theorem settle_empty (h0 : Major.first.get s.mem maj = 0) (hmaj : maj + 40 < 2 ^ 64)
    {startedBet : Bool} {again : ℕ → Bool → Heap σ → Option (ℕ × Heap σ)}
    (hr : settle K size req fuel startedBet again maj s = some (q, s')) :
    q = align (maj + 80) ∧ s'.pager = s.pager := by
  have hfirst : Major.first.get (Major.first.set s.mem maj (maj + recordSize)) maj = maj + 40 :=
    Member.get_set_of_lt (by rw [recordSize_eq]; exact hmaj)
  have hplaced : (caseNew size req maj s).1 = align (maj + 80) := by
    rw [caseNew]
    dsimp only [handOut]
    rw [hfirst, recordSize_eq]
  rw [settle, placeIn, if_pos h0] at hr
  have hpager : (caseNew size req maj s).2.pager = s.pager := rfl
  rw [Option.some_inj.mp hr] at hplaced hpager
  exact ⟨hplaced, hpager⟩

/-- A new block has no minor, wherever its pages are. -/
@[simp] theorem first_majorRecord (m : Bytes) (st : ℕ) :
    Major.first.get (majorRecord m maj st) maj = 0 := by
  simp only [majorRecord, Member.get_set_self, Nat.zero_mod]

/-- `q` are the pages that the last call of the hook gave, for a request of `size` bytes. -/
def Last (K : Hooks σ) (size q : ℕ) (s : Heap σ) : Prop :=
  ∃ t u, K.alloc (pagesFor size) t = (q, u) ∧ u.pager = s.pager

/-- Growing the heap, if the hook gives pages. -/
theorem growAt_first (hr : growAt K size maj s = (q, s')) (hq : q ≠ 0) :
    Last K size q s' ∧
      (q % pageBytes = 0 → maj % pageBytes = 0 → Major.first.get s'.mem q = 0) := by
  obtain ⟨p, t, ha⟩ : ∃ p t, K.alloc (pagesFor size) s = (p, t) := ⟨_, _, rfl⟩
  rw [growAt, allocateNewPage] at hr
  simp only [ha] at hr
  by_cases hp : p = 0
  · simp only [hp, if_true, Prod.mk.injEq] at hr
    exact absurd hr.1.symm hq
  · simp only [hp, if_false, Prod.mk.injEq] at hr
    obtain ⟨rfl, rfl⟩ := hr
    refine ⟨⟨s, t, ha, rfl⟩, fun hal hal' => ?_⟩
    rw [pageBytes_eq] at hal hal'
    rw [Member.get_set_of_ne (by decide)]
    by_cases heq : maj = p
    · rw [heq, Member.get_set_of_ne (by decide), first_majorRecord]
    · rw [Member.get_set_of_apart (by omega), first_majorRecord]

/-- The first turn of the search in a block without a minor: it serves the request, or a second
block does. -/
theorem visit_empty (hK : Plain K) (h0 : Major.first.get s.mem maj = 0) (hmaj : maj + 40 < 2 ^ 64)
    (hal : maj % pageBytes = 0) (hnext : Major.next.get s.mem maj = 0)
    {again : ℕ → Bool → Heap σ → Option (ℕ × Heap σ)}
    (hr : visit K size req fuel false again maj s = some (q, s')) (hq : q ≠ 0) :
    q = align (maj + 80) ∧ s'.pager = s.pager ∨ ∃ p, q = align (p + 80) ∧ Last K size p s' := by
  rw [visit, hnext] at hr
  split at hr
  · obtain ⟨p, t, hgrow⟩ : ∃ p t, growAt K size maj s = (p, t) := ⟨_, _, rfl⟩
    simp only [ne_eq, not_true_eq_false, Bool.false_eq_true, if_false, hgrow] at hr
    by_cases hp : p = 0
    · rw [if_pos hp] at hr
      exact absurd (Prod.mk.inj (Option.some_inj.mp hr)).1.symm hq
    · rw [if_neg hp] at hr
      obtain ⟨⟨u, v, ha, hlast⟩, hfirst⟩ := growAt_first hgrow hp
      have hal' := hK.aligned (pagesFor size) u
      rw [ha] at hal'
      have hbound := hK.bound (pagesFor size) u (by rw [ha]; exact hp)
      rw [ha] at hbound
      have hpages : 16 ≤ pagesFor size := by
        rw [pagesFor_eq]
        exact Nat.le_max_left _ _
      rw [pageBytes_eq] at hbound
      obtain ⟨hplace, hpager⟩ := settle_empty (hfirst hal' hal) (by omega) hr
      exact .inr ⟨p, hplace, u, v, ha, hlast.trans hpager.symm⟩
  · exact .inl (settle_empty h0 hmaj hr)

/-- The search in a heap of one block, without a minor. -/
theorem searchFrom_empty (hK : Plain K) (hroot : s.memRoot = maj) (hbet : s.bestBet = 0)
    (hmaj : maj ≠ 0) (hbound : maj + 40 < 2 ^ 64) (hal : maj % pageBytes = 0)
    (hfirst : Major.first.get s.mem maj = 0) (hnext : Major.next.get s.mem maj = 0)
    (hr : searchFrom K fuel size req s = some (q, s')) (hq : q ≠ 0) :
    q = align (maj + 80) ∧ s'.pager = s.pager ∨ ∃ p, q = align (p + 80) ∧ Last K size p s' := by
  rw [searchFrom, if_pos hbet, hroot] at hr
  cases fuel with
  | zero => cases hr
  | succ fuel =>
      rw [searchMajors, if_neg hmaj] at hr
      split at hr
      · exact visit_empty (s := { s with bestBet := maj }) hK hfirst hbound hal hnext hr hq
      · exact visit_empty hK hfirst hbound hal hnext hr hq

/-- The place of the first allocation of a heap. -/
theorem kmallocSized_first (hK : Plain K) (hroot : s.memRoot = 0) (hbet : s.bestBet = 0)
    (hr : kmallocSized K fuel size req s = some (q, s')) (hq : q ≠ 0) :
    ∃ p, q = align (p + 80) ∧ Last K size p s' := by
  obtain ⟨p, u, ha⟩ : ∃ p u, K.alloc (pagesFor size) s = (p, u) := ⟨_, _, rfl⟩
  have hal : p % pageBytes = 0 := by
    rw [← hK.aligned (pagesFor size) s, ha]
  have hbet' : u.bestBet = 0 := by
    have hleaves := congrArg Heap.bestBet (hK.leaves (pagesFor size) s)
    rw [ha] at hleaves
    exact hleaves.trans hbet
  have hpages : 16 ≤ pagesFor size := by
    rw [pagesFor_eq]
    exact Nat.le_max_left _ _
  have hnext : Major.next.get (majorRecord u.mem p (pagesFor size)) p = 0 := by
    simp (disch := decide) only [majorRecord, Member.get_set_of_ne, Member.get_set_self,
      Nat.zero_mod]
  have hfirst : Major.first.get (majorRecord u.mem p (pagesFor size)) p = 0 :=
    first_majorRecord u.mem (pagesFor size)
  have hlt : p ≠ 0 → p + 40 < 2 ^ 64 := by
    intro hp
    have hbound := hK.bound (pagesFor size) s (by rw [ha]; exact hp)
    rw [ha, pageBytes_eq] at hbound
    omega
  -- what the record of the new block is made of does not matter
  obtain ⟨m, hm⟩ : ∃ m, majorRecord u.mem p (pagesFor size) = m := ⟨_, rfl⟩
  rw [hm] at hnext hfirst
  rw [kmallocSized, if_pos hroot, allocateNewPage] at hr
  simp only [ha, hm] at hr
  by_cases hp : p = 0
  · simp only [hp, if_true] at hr
    exact absurd (Prod.mk.inj (Option.some_inj.mp hr)).1.symm hq
  · simp only [hp, if_false] at hr
    have hplace := searchFrom_empty (s := { u with
      mem := m
      memRoot := p
      allocated := (u.allocated + Major.size.get m p) % 2 ^ 64 }) hK rfl hbet' hp (hlt hp) hal hfirst
      hnext hr hq
    exact hplace.elim (fun hplace => ⟨p, hplace.1, s, u, ha, hplace.2.symm⟩) id

end

theorem Bump.plain : Plain Bump.hooks := by
  constructor
  · intro n s
    rw [Bump.hooks]
    dsimp only
    split
    · exact Nat.mul_mod_left _ _
    · rfl
  · intro n s h0
    rw [Bump.hooks] at h0 ⊢
    dsimp only at h0 ⊢
    split
    · rename_i hle
      rwa [Nat.add_mul] at hle
    · rename_i hle
      rw [if_neg hle] at h0
      exact absurd rfl h0
  · intro n s
    rw [Bump.hooks]
    dsimp only
    split <;> rfl

end Liballoc

end BootableKernel
