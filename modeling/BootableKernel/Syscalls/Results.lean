import BootableKernel.Syscalls.Mmap

/-!
# What comes back from a system call

Two things can go wrong with the result on its way to user code. `mmap` adds the offset to
whatever `vmm_mmap` returned, also when that was null; and `handle_syscall` returns an
`int`, into which neither a byte count nor a pointer need fit.
-/

namespace BootableKernel

open LinkedList Paging Vmm

namespace Syscalls

variable {vbe : VbeInfo} {P : Platform} {kmalloc : KMalloc}

/-! ## When `vmm_mmap` has no room -/

/-- The frames `mmap` asks for: any, or those of the frame buffer. -/
def physicalOf (vbe : VbeInfo) (fd : BitVec 32) : ℕ :=
  if fd = -1 then 0 else (vbe.physicalBuffer &&& 0xfffff000).toNat

theorem mmap_null {fd : BitVec 32} (hfd : fd = -1 ∨ fd = 0xdeadbeef) (length offset : Word)
    (σ : Vmm) :
    mmap vbe P kmalloc 0 length fd offset σ =
      mapPages P kmalloc (physicalOf vbe fd) (length.toNat / pageSize) offset σ := by
  rcases hfd with rfl | rfl
  · rw [mmap, if_pos ⟨rfl, rfl⟩, physicalOf, if_pos rfl]
  · rw [mmap, if_neg (by decide), if_neg (by decide), if_neg (by decide), if_pos rfl, physicalOf,
      if_neg (by decide)]

/-- What `vmm_mmap` returns for `pages` pages of these free blocks: the first range with room
for them, or null. -/
def firstFit (bs : List Span) (pages : ℕ) : ℕ :=
  match FreeList.take pageSize pages bs with
  | none => 0
  | some (start, _) => start

variable (P kmalloc) in
/-- `vmm_mmap` always returns, and without room it changes nothing. -/
theorem mapPages_firstFit {σ : Vmm} {xs : List (ℕ × Span)} (h : Ledger σ xs)
    (physical pages : ℕ) (offset : Word) :
    ∃ σ', σ.vmmMmap P kmalloc physical pages false = .ok (firstFit (blocks xs) pages, σ') ∧
      (mapPages P kmalloc physical pages offset σ).result =
        .ok (BitVec.ofNat 64 (firstFit (blocks xs) pages) + offset, σ') ∧
      (Room σ pages ∧ firstFit (blocks xs) pages ≠ 0 ∨
        ¬ Room σ pages ∧ firstFit (blocks xs) pages = 0 ∧ σ' = σ) := by
  obtain ⟨⟨p, σ'⟩, hm⟩ := h.mmap_ok (P := P) kmalloc physical pages false
  have hresult : (mapPages P kmalloc physical pages offset σ).result =
      .ok (BitVec.ofNat 64 p + offset, σ') := by
    rw [mapPages, hm]
  rcases h.mmap hm with ⟨rfl, rfl, hnone⟩ | ⟨ys, -, hsome, hp, -, -⟩
  · have hfit : firstFit (blocks xs) pages = 0 := by rw [firstFit, hnone]
    rw [hfit]
    refine ⟨σ', hm, hresult, .inr ⟨?_, rfl, rfl⟩⟩
    rw [room_iff h.chain, not_not]
    exact hnone
  · have hfit : firstFit (blocks xs) pages = p := by rw [firstFit, hsome]
    rw [hfit]
    refine ⟨σ', hm, hresult, .inl ⟨?_, Nat.ne_of_gt (lt_of_lt_of_le (by decide) hp)⟩⟩
    rw [room_iff h.chain, hsome]
    simp

/-- **Failure is reported.** A call of `mmap` for which `vmm_mmap` has no room returns
`(void *) -1` and changes nothing, if and only if there is room or the offset happens to be
that value. -/
theorem mmap_reports_iff (B : Boot) {allowed : Vmm → Request → Prop} {σ₀ σ : Vmm}
    (h₀ : Bootstrapped B.platform B.paging σ₀) (hrun : Run B.platform allowed σ₀ σ)
    (vbe : VbeInfo) (kmalloc : KMalloc) {fd : BitVec 32} (hfd : fd = -1 ∨ fd = 0xdeadbeef)
    (length offset : Word) :
    ((∃ τ, σ.vmmMmap B.platform kmalloc (physicalOf vbe fd) (length.toNat / pageSize) false =
        .ok (0, τ)) →
      (mmap vbe B.platform kmalloc 0 length fd offset σ).result = .ok (-1, σ)) ↔
    Room σ (length.toNat / pageSize) ∨ offset = -1 := by
  obtain ⟨xs, h⟩ := ledger_of_run h₀ hrun
  obtain ⟨σ', hm, hresult, hcases⟩ := mapPages_firstFit B.platform kmalloc h
    (physicalOf vbe fd) (length.toNat / pageSize) offset
  rw [mmap_null hfd, hm, hresult]
  rcases hcases with ⟨hroom, hne⟩ | ⟨hroom, hzero, rfl⟩
  · refine iff_of_true ?_ (.inl hroom)
    rintro ⟨τ, hτ⟩
    rw [Except.ok.injEq, Prod.mk.injEq] at hτ
    exact absurd hτ.1 hne
  · rw [hzero]
    simp only [Except.ok.injEq, Prod.mk.injEq, true_and, exists_eq', true_imp_iff, and_true,
      hroom, false_or]
    rw [show BitVec.ofNat 64 0 + offset = offset from BitVec.zero_add offset]

/-- More pages than the heap has, on the sample image. -/
theorem sampleStart_noRoom (length offset : Word) (hlen : maxHeapSize < length.toNat / pageSize)
    {fd : BitVec 32} (hfd : fd = -1 ∨ fd = 0xdeadbeef) :
    (∃ τ, sampleStart.vmmMmap Boot.sample.platform (fun σ => .ok (0, σ))
        (physicalOf VbeInfo.sample fd) (length.toNat / pageSize) false = .ok (0, τ)) ∧
    (mmap VbeInfo.sample Boot.sample.platform (fun σ => .ok (0, σ)) 0 length fd offset
      sampleStart).result = .ok (offset, sampleStart) := by
  obtain ⟨node, h⟩ := sampleStart_ledger
  obtain ⟨σ', hm, hresult, hcases⟩ := mapPages_firstFit Boot.sample.platform
    (fun σ => .ok (0, σ)) h (physicalOf VbeInfo.sample fd) (length.toNat / pageSize) offset
  rw [mmap_null hfd, hm, hresult]
  rcases hcases with ⟨⟨ys, hys, b, hb, hle⟩, -⟩ | ⟨-, hzero, rfl⟩
  · obtain rfl := h.chain.unique hys
    obtain rfl := List.mem_singleton.mp hb
    simp only [maxHeapSize] at *
    omega
  · rw [hzero, show BitVec.ofNat 64 0 + offset = offset from BitVec.zero_add offset]
    exact ⟨⟨sampleStart, rfl⟩, rfl⟩

/-- With an offset of -1 the caller is told. -/
theorem mmap_reports_offset :
    (mmap VbeInfo.sample Boot.sample.platform (fun σ => .ok (0, σ)) 0 0x100000000 (-1) (-1)
      sampleStart).result = .ok (-1, sampleStart) := by
  have hrun : Run Boot.sample.platform Vmm.Served sampleStart sampleStart := .refl
  have hnull := (sampleStart_noRoom 0x100000000 (-1) (by decide) (.inl rfl)).1
  exact (mmap_reports_iff Boot.sample sampleStart_bootstrapped hrun VbeInfo.sample
    (fun σ => .ok (0, σ)) (.inl rfl) 0x100000000 (-1)).mpr (.inr rfl) hnull

/-- Asked for 4 GB, `mmap` returns null as if that were where they are. -/
theorem mmap_null_unreported :
    Bootstrapped Boot.sample.platform Boot.sample.paging sampleStart ∧
    ¬ ((∃ τ, sampleStart.vmmMmap Boot.sample.platform (fun σ => .ok (0, σ))
        (physicalOf VbeInfo.sample (-1)) ((0x100000000 : Word).toNat / pageSize) false =
          .ok (0, τ)) →
      (mmap VbeInfo.sample Boot.sample.platform (fun σ => .ok (0, σ)) 0 0x100000000 (-1) 0
        sampleStart).result = .ok (-1, sampleStart)) := by
  obtain ⟨hnull, hresult⟩ := sampleStart_noRoom 0x100000000 0 (by decide) (.inl rfl)
  refine ⟨sampleStart_bootstrapped, fun hreport => ?_⟩
  have hok := hresult.symm.trans (hreport hnull)
  rw [Except.ok.injEq, Prod.mk.injEq] at hok
  exact absurd hok.1 (by decide)

/-! ## The way through an `int` -/

/-- The lengths of `n` buffers of an `iovec` array. -/
def iovLengths (m : ByteMemory) : ℕ → Word → List ℕ
  | 0, _ => []
  | n + 1, iov => (ByteMemory.read 64 m (iov + 8)).toNat :: iovLengths m n (iov + 16)

/-- The result a handler has before it is narrowed. A pointer counts as the `long` that
`handle_syscall` makes of it. -/
def exactResult (m : ByteMemory) (vbe : VbeInfo) (P : Platform) (kmalloc : KMalloc)
    (a b c e f n : Word) (σ : Vmm) : Except Trap ℤ :=
  if n = nrWrite then .ok c.toNat
  else if n = nrWritev then .ok (iovLengths m (c.setWidth 32).toInt.toNat b).sum
  else (mmap vbe P kmalloc a b (e.setWidth 32) f σ).result.map fun r => r.1.toInt

/-- `mmap` does not take this address or this descriptor. -/
def Refused (addr : Word) (fd : BitVec 32) : Prop :=
  ¬ (fd = -1 ∧ addr = 0) ∧ (addr.toNat % pageSize ≠ 0 ∨ fd ≠ 0xdeadbeef)

/-- The address that `mmap` adds the offset to. -/
def target (bs : List Span) (addr length : Word) : Word :=
  if addr = 0 then BitVec.ofNat 64 (firstFit bs (length.toNat / pageSize)) else addr

/-- The result of the call has a place in an `int`. -/
def FitsInt (m : ByteMemory) (bs : List Span) (a b c e f n : Word) : Prop :=
  (n = nrWrite → c.toNat < 2 ^ 31) ∧
  (n = nrWritev → (iovLengths m (c.setWidth 32).toInt.toNat b).sum < 2 ^ 31) ∧
  (n = nrMmap → Refused a (e.setWidth 32) ∨
    -2 ^ 31 ≤ (target bs a b + f).toInt ∧ (target bs a b + f).toInt < 2 ^ 31)

theorem toInt_ofNat32_eq_iff (k : ℕ) : (BitVec.ofNat 32 k).toInt = k ↔ k < 2 ^ 31 := by
  rw [BitVec.toInt_eq_toNat_cond, BitVec.toNat_ofNat]
  split <;> omega

theorem toInt_setWidth32_eq_iff (w : Word) :
    (w.setWidth 32).toInt = w.toInt ↔ -2 ^ 31 ≤ w.toInt ∧ w.toInt < 2 ^ 31 := by
  have hlt := w.isLt
  rw [BitVec.toInt_eq_toNat_cond, BitVec.toInt_eq_toNat_cond, BitVec.toNat_setWidth]
  split <;> split <;> omega

/-- `writev` adds the lengths up in an `int`. -/
theorem writevLoop_result (m : ByteMemory) (n : ℕ) (iov : Word) (written : BitVec 32) :
    (writevLoop m n iov written).result =
      .ok (written + BitVec.ofNat 32 (iovLengths m n iov).sum) := by
  induction n generalizing iov written with
  | zero => exact congrArg Except.ok (BitVec.add_zero written).symm
  | succ n ih =>
      rw [writevLoop, iovLengths, List.sum_cons, BitVec.ofNat_add, ← BitVec.add_assoc]
      exact ih (iov + 16) _

variable (vbe P kmalloc) in
/-- `mmap` always returns: a refusal, or the address it was for with the offset added. -/
theorem mmap_returns {σ : Vmm} {xs : List (ℕ × Span)} (h : Ledger σ xs) (addr length : Word)
    (fd : BitVec 32) (offset : Word) :
    ∃ p σ', (mmap vbe P kmalloc addr length fd offset σ).result = .ok (p, σ') ∧
      (Refused addr fd ∧ p = -1 ∨
        ¬ Refused addr fd ∧ p = target (blocks xs) addr length + offset) := by
  by_cases hnull : addr = 0 ∧ (fd = -1 ∨ fd = 0xdeadbeef)
  · obtain ⟨rfl, hfd⟩ := hnull
    obtain ⟨σ', -, hresult, -⟩ := mapPages_firstFit P kmalloc h
      (physicalOf vbe fd) (length.toNat / pageSize) offset
    rw [mmap_null hfd]
    refine ⟨_, σ', hresult, .inr ⟨?_, rfl⟩⟩
    rintro ⟨hno, hal | hne⟩
    · exact hal (Nat.zero_mod _)
    · exact hfd.elim (fun hfd => hno ⟨hfd, rfl⟩) hne
  · have hno : ¬ (fd = -1 ∧ addr = 0) := fun hc => hnull ⟨hc.2, .inl hc.1⟩
    rw [mmap, if_neg hno]
    by_cases hal : addr.toNat % pageSize = 0
    · by_cases hfd : fd = 0xdeadbeef
      · have hne : addr ≠ 0 := fun hc => hnull ⟨hc, .inr hfd⟩
        rw [if_neg (not_not_intro hal), if_neg (not_not_intro hfd), if_neg hne]
        refine ⟨_, σ, rfl, .inr ⟨?_, by rw [target, if_neg hne]⟩⟩
        exact fun hr => hr.2.elim (fun hc => hc hal) fun hc => hc hfd
      · rw [if_neg (not_not_intro hal), if_pos hfd]
        exact ⟨_, σ, rfl, .inl ⟨⟨hno, .inr hfd⟩, rfl⟩⟩
    · rw [if_pos hal]
      exact ⟨_, σ, rfl, .inl ⟨⟨hno, .inl hal⟩, rfl⟩⟩

/-! ### Each of the calls -/

section Calls
variable (m : ByteMemory) (vbe : VbeInfo) (P : Platform) (kmalloc : KMalloc) (a b c d e f : Word)

theorem write_exact_iff (σ : Vmm) (bs : List Span) :
    ((handleSyscall m vbe P kmalloc a b c d e f nrWrite σ).result.map fun r => r.1.toInt) =
      exactResult m vbe P kmalloc a b c e f nrWrite σ ↔ FitsInt m bs a b c e f nrWrite := by
  have hresult : (handleSyscall m vbe P kmalloc a b c d e f nrWrite σ).result =
      .ok (c.setWidth 32, σ) := by
    rw [handleSyscall, if_pos rfl]
    rfl
  have hfits : FitsInt m bs a b c e f nrWrite ↔ c.toNat < 2 ^ 31 :=
    ⟨fun h => h.1 rfl, fun h => ⟨fun _ => h, fun hc => absurd hc (by decide),
      fun hc => absurd hc (by decide)⟩⟩
  have hnarrow : c.setWidth 32 = BitVec.ofNat 32 c.toNat := by
    apply BitVec.eq_of_toNat_eq
    rw [BitVec.toNat_setWidth, BitVec.toNat_ofNat]
  rw [hresult, exactResult, if_pos rfl, hfits, ← toInt_ofNat32_eq_iff, ← hnarrow, Except.map,
    Except.ok.injEq]

theorem writev_exact_iff (σ : Vmm) (bs : List Span) :
    ((handleSyscall m vbe P kmalloc a b c d e f nrWritev σ).result.map fun r => r.1.toInt) =
      exactResult m vbe P kmalloc a b c e f nrWritev σ ↔ FitsInt m bs a b c e f nrWritev := by
  have hresult : (handleSyscall m vbe P kmalloc a b c d e f nrWritev σ).result =
      .ok (BitVec.ofNat 32 (iovLengths m (c.setWidth 32).toInt.toNat b).sum, σ) := by
    rw [handleSyscall, if_neg (by decide), if_neg (by decide), if_pos rfl]
    have hloop := writevLoop_result m (c.setWidth 32).toInt.toNat b 0
    rw [show (0 : BitVec 32) + _ = _ from BitVec.zero_add _] at hloop
    exact congrArg (Except.map (·, σ)) hloop
  have hfits : FitsInt m bs a b c e f nrWritev ↔
      (iovLengths m (c.setWidth 32).toInt.toNat b).sum < 2 ^ 31 :=
    ⟨fun h => h.2.1 rfl, fun h => ⟨fun hc => absurd hc (by decide), fun _ => h,
      fun hc => absurd hc (by decide)⟩⟩
  rw [hresult, exactResult, if_neg (by decide), if_pos rfl, hfits, ← toInt_ofNat32_eq_iff,
    Except.map, Except.ok.injEq]

theorem mmap_exact_iff {σ : Vmm} {xs : List (ℕ × Span)} (h : Ledger σ xs) :
    ((handleSyscall m vbe P kmalloc a b c d e f nrMmap σ).result.map fun r => r.1.toInt) =
      exactResult m vbe P kmalloc a b c e f nrMmap σ ↔ FitsInt m (blocks xs) a b c e f nrMmap := by
  obtain ⟨p, σ', hp, hcases⟩ := mmap_returns vbe P kmalloc h a b (e.setWidth 32) f
  have hresult : (handleSyscall m vbe P kmalloc a b c d e f nrMmap σ).result =
      .ok (p.setWidth 32, σ') := by
    rw [handleSyscall, if_neg (by decide), if_neg (by decide), if_neg (by decide),
      if_neg (by decide), if_pos rfl]
    exact congrArg (Except.map fun r => (r.1.setWidth 32, r.2)) hp
  have hfits : FitsInt m (blocks xs) a b c e f nrMmap ↔ Refused a (e.setWidth 32) ∨
      -2 ^ 31 ≤ (target (blocks xs) a b + f).toInt ∧ (target (blocks xs) a b + f).toInt < 2 ^ 31 :=
    ⟨fun h => h.2.2 rfl, fun h => ⟨fun hc => absurd hc (by decide),
      fun hc => absurd hc (by decide), fun _ => h⟩⟩
  rw [hresult, exactResult, if_neg (by decide), if_neg (by decide), hp, hfits, Except.map,
    Except.map, Except.ok.injEq, toInt_setWidth32_eq_iff]
  rcases hcases with ⟨hno, rfl⟩ | ⟨hyes, rfl⟩
  · exact iff_of_true (by decide) (.inl hno)
  · rw [or_iff_right hyes]

end Calls

/-- **No result is truncated** between the handlers of `write`, `writev` and `mmap` and user
code, if and only if it has a place in an `int`. -/
theorem handleSyscall_exact_iff (B : Boot) {allowed : Vmm → Request → Prop} {σ₀ σ : Vmm}
    (h₀ : Bootstrapped B.platform B.paging σ₀) (hrun : Run B.platform allowed σ₀ σ)
    {xs : List (ℕ × Span)} (hxs : Chain σ.nodes σ.blockchain xs) (m : ByteMemory) (vbe : VbeInfo)
    (kmalloc : KMalloc) {n : Word} (hn : n = nrWrite ∨ n = nrWritev ∨ n = nrMmap)
    (a b c d e f : Word) :
    ((handleSyscall m vbe B.platform kmalloc a b c d e f n σ).result.map fun r => r.1.toInt) =
      exactResult m vbe B.platform kmalloc a b c e f n σ ↔
    FitsInt m (blocks xs) a b c e f n := by
  obtain ⟨ys, h⟩ := ledger_of_run h₀ hrun
  obtain rfl := h.chain.unique hxs
  rcases hn with rfl | rfl | rfl
  · exact write_exact_iff ..
  · exact writev_exact_iff ..
  · exact mmap_exact_iff m vbe B.platform kmalloc a b c d e f h

/-- What `mmap` returns without an offset has a place in an `int`: the heap ends far below
2 GB. -/
theorem fitsInt_heap {σ : Vmm} {xs : List (ℕ × Span)} (h : Ordered σ xs) (m : ByteMemory)
    (b c e : Word) : FitsInt m (blocks xs) 0 b c e 0 nrMmap := by
  refine ⟨fun hc => absurd hc (by decide), fun hc => absurd hc (by decide), fun _ => .inr ?_⟩
  rw [show target (blocks xs) 0 b + 0 = target (blocks xs) 0 b from BitVec.add_zero _, target,
    if_pos rfl, firstFit]
  split
  · decide
  · rename_i s _ ht
    have hs := heapPage_take h ht
    have hlt := hs.lt
    rw [heapEnd_eq] at hlt
    rw [BitVec.toInt_eq_toNat_cond, hs.toNat_ofNat, if_pos (by omega)]
    omega

/-- Two pages of anonymous memory on the sample image. -/
theorem handleSyscall_exact_anonymous :
    ((handleSyscall (fun _ => 0) VbeInfo.sample Boot.sample.platform (fun σ => .ok (0, σ))
        0 0x2000 0 0 (-1) 0 nrMmap sampleStart).result.map fun r => r.1.toInt) =
      exactResult (fun _ => 0) VbeInfo.sample Boot.sample.platform (fun σ => .ok (0, σ))
        0 0x2000 0 (-1) 0 nrMmap sampleStart := by
  obtain ⟨xs, h⟩ := ordered_of_run sampleStart_bootstrapped .refl
  have hrun : Run Boot.sample.platform Vmm.Served sampleStart sampleStart := .refl
  exact (handleSyscall_exact_iff Boot.sample sampleStart_bootstrapped hrun h.chain (fun _ => 0)
    VbeInfo.sample (fun σ => .ok (0, σ)) (.inr (.inr rfl)) 0 0x2000 0 0 (-1) 0).mpr
    (fitsInt_heap h _ _ _ _)

/-- A page of `/dev/mem` for an address that is given comes back with the low half of the
address. -/
theorem handleSyscall_mmap_truncated :
    ((handleSyscall (fun _ => 0) VbeInfo.sample Boot.sample.platform (fun σ => .ok (0, σ))
        0x123456789000 0x1000 0 0 0xdeadbeef 0x10 nrMmap sampleStart).result.map
          fun r => r.1.toInt) ≠
      exactResult (fun _ => 0) VbeInfo.sample Boot.sample.platform (fun σ => .ok (0, σ))
        0x123456789000 0x1000 0 0xdeadbeef 0x10 nrMmap sampleStart := by
  intro heq
  obtain ⟨node, h⟩ := sampleStart_ledger
  have hfits := ((mmap_exact_iff _ _ _ _ _ _ 0 0 _ _ h).mp heq).2.2 rfl
  rcases hfits with hrefused | ⟨-, hlt⟩
  · unfold Refused at hrefused
    exact absurd hrefused (by decide)
  · rw [target, if_neg (by decide)] at hlt
    exact absurd hlt (by decide)

end Syscalls
end BootableKernel
