import BootableKernel.Memory.Stages

/-!
# The translation look-aside buffer

The processor caches translations together with their rights. It may load the translation
of any page at any time, also between the stores of a call that is changing it, and drops
the entry of a page only when it executes `invlpg` on an address of that page. Both functions
that rewrite the entries of a page end in `flush_tlb`, but neither passes it the address of
the page: `set_page_permission` passes the new leaf entry, and `vmm_map_memory` the
physical address. `tlbCoherent_iff` says exactly when this is enough.

A leaf entry with the no-execute bit is not a canonical address, so withdrawing the right
to execute never flushes anything.
-/

namespace BootableKernel

open Paging (pageNumber)

/-- Cached translations, by page number: the frame and the rights. -/
abbrev Tlb := ℕ → Option (ℕ × Rights)

/-- Bits 47 to 63 of an address are equal. -/
def canonical (a : ℕ) : Bool := a / 2 ^ 47 = 0 || a / 2 ^ 47 = 2 ^ 17 - 1

theorem canonical_of_lt {a : ℕ} (h : a < 2 ^ 47) : canonical a = true :=
  Bool.or_eq_true_iff.mpr (.inl (decide_eq_true (Nat.div_eq_of_lt h)))

/-- The `invlpg` instruction. -/
def Tlb.invlpg (t : Tlb) (a : ℕ) : Tlb :=
  if canonical a then Function.update t (pageNumber a) none else t

/-- The `invlpg` instructions between two states. -/
def Tlb.flush (t : Tlb) (σ σ' : Paging) : Tlb :=
  (σ'.flushed.take (σ'.flushed.length - σ.flushed.length)).foldr (fun a t => t.invlpg a) t

namespace Paging
variable {P : Platform}

/-- What is cached for the page of `v` is what the tables say. -/
def Agrees (P : Platform) (σ : Paging) (t : Tlb) (v : ℕ) : Prop :=
  ∀ e, t (pageNumber v) = some e → σ.lookup P v = some e

/-- Everything that is cached is what the tables say. -/
def Coherent (P : Platform) (σ : Paging) (t : Tlb) : Prop := ∀ v, Agrees P σ t v

/-- The buffer `t'` can come about from `t` by loading translations from the tables. -/
def Loads (P : Platform) (σ : Paging) (t t' : Tlb) : Prop :=
  ∀ p, t' p = t p ∨ ∃ v e, pageNumber v = p ∧ σ.lookup P v = some e ∧ t' p = some e

/-- The buffer `t'` can come about from `t` while the tables are those of `stages`, one
after the other. -/
def LoadsAll (P : Platform) : List Paging → Tlb → Tlb → Prop
  | [], t, t' => t' = t
  | τ :: stages, t, t' => ∃ s, Loads P τ t s ∧ LoadsAll P stages s t'

/-- After a call that led from `σ` to `σ'` through the tables `stages`, and whatever was
loaded before its `invlpg` and is loaded then, the entry of the page of `v` agrees with the
tables. -/
def StaysCoherent (P : Platform) (stages : List Paging) (σ σ' : Paging) (t : Tlb) (v : ℕ) : Prop :=
  ∀ s t', LoadsAll P stages t s → Loads P σ' (s.flush σ σ') t' → Agrees P σ' t' v

/-! ## The buffer -/

/-- The translation is that of the page. -/
theorem lookup_congr (σ : Paging) {v w : ℕ} (h : pageNumber w = pageNumber v) :
    σ.lookup P w = σ.lookup P v := by
  have he := leafOf_eq_iff.mpr h
  simp only [leafOf, tablePath, Prod.mk.injEq, List.cons.injEq] at he
  obtain ⟨⟨h4, h3, h2, -⟩, h1⟩ := he
  simp only [lookup, translate, rights, leaf, tablePath, entriesOf, dirsOf, leafOf, h4, h3, h2, h1]

theorem Tlb.flush_cons {σ σ' : Paging} {a : ℕ} (h : σ'.flushed = a :: σ.flushed) (t : Tlb) :
    t.flush σ σ' = t.invlpg a := by
  rw [Tlb.flush, h, List.length_cons, Nat.add_sub_cancel_left, List.take_succ_cons, List.take_zero]
  rfl

theorem Tlb.of_invlpg {t : Tlb} {a p : ℕ} {e : ℕ × Rights} (h : t.invlpg a p = some e) :
    t p = some e := by
  rw [Tlb.invlpg] at h
  split at h
  · by_cases hp : p = pageNumber a
    · rw [hp, Function.update_self] at h
      exact absurd h (by simp)
    · rwa [Function.update_of_ne hp] at h
  · exact h

/-- Flushing only drops entries. -/
theorem Tlb.of_flush {t : Tlb} {σ σ' : Paging} {p : ℕ} {e : ℕ × Rights}
    (h : t.flush σ σ' p = some e) : t p = some e := by
  rw [Tlb.flush] at h
  generalize σ'.flushed.take (σ'.flushed.length - σ.flushed.length) = l at h
  induction l with
  | nil => exact h
  | cons a l ih => exact ih (Tlb.of_invlpg h)

/-- What is cached for a page was cached before or has been loaded. -/
theorem Loads.cached {σ : Paging} {t t' : Tlb} (h : Loads P σ t t') {v : ℕ} {e : ℕ × Rights}
    (he : t' (pageNumber v) = some e) : t (pageNumber v) = some e ∨ σ.lookup P v = some e := by
  rcases h (pageNumber v) with hp | ⟨w, e', hw, hl, hp⟩
  · exact .inl (hp ▸ he)
  · rw [he, Option.some.injEq] at hp
    rw [← lookup_congr σ hw, hp]
    exact .inr hl

theorem LoadsAll.cached {stages : List Paging} {t t' : Tlb} (h : LoadsAll P stages t t') {v : ℕ}
    {e : ℕ × Rights} (he : t' (pageNumber v) = some e) :
    t (pageNumber v) = some e ∨ ∃ τ ∈ stages, τ.lookup P v = some e := by
  induction stages generalizing t with
  | nil => exact .inl (h ▸ he)
  | cons τ stages ih =>
      obtain ⟨s, hload, hall⟩ := h
      rcases ih hall with hs | ⟨τ', hmem, hl⟩
      · rcases hload.cached hs with ht | hl
        · exact .inl ht
        · exact .inr ⟨τ, List.mem_cons_self .., hl⟩
      · exact .inr ⟨τ', List.mem_cons_of_mem _ hmem, hl⟩

theorem loads_refl (σ : Paging) (t : Tlb) : Loads P σ t t := fun _ => .inl rfl

theorem loadsAll_refl (stages : List Paging) (t : Tlb) : LoadsAll P stages t t := by
  induction stages with
  | nil => rfl
  | cons τ stages ih => exact ⟨t, loads_refl τ t, ih⟩

/-- What the tables say at any stage can be in the buffer at the end. -/
theorem exists_loadsAll {stages : List Paging} {τ : Paging} (hτ : τ ∈ stages) {v : ℕ}
    {e : ℕ × Rights} (he : τ.lookup P v = some e) (t : Tlb) :
    ∃ t', LoadsAll P stages t t' ∧ t' (pageNumber v) = some e := by
  induction stages generalizing t with
  | nil => exact absurd hτ (by simp)
  | cons τ' stages ih =>
      rcases List.mem_cons.mp hτ with rfl | hτ
      · refine ⟨_, ⟨Function.update t (pageNumber v) (some e), fun p => ?_, loadsAll_refl stages _⟩,
          Function.update_self ..⟩
        by_cases hp : p = pageNumber v
        · subst hp
          exact .inr ⟨v, e, rfl, he, Function.update_self ..⟩
        · exact .inl (Function.update_of_ne hp _ _)
      · obtain ⟨t', hall, ht'⟩ := ih hτ t
        exact ⟨t', ⟨t, loads_refl τ' t, hall⟩, ht'⟩

/-- A call between whose stores nothing else can be loaded keeps the buffer right. -/
theorem staysCoherent_of_stages {stages : List Paging} {σ σ' : Paging} {t : Tlb}
    (ht : Coherent P σ t) (hσ : σ ∈ stages) {v : ℕ}
    (h : ∀ τ ∈ stages, ∀ e, τ.lookup P v = some e → σ'.lookup P v = some e) :
    StaysCoherent P stages σ σ' t v := by
  intro s t' hall hload e he
  rcases hload.cached he with hs | hl
  · rcases hall.cached (Tlb.of_flush hs) with hc | ⟨τ, hτ, hl⟩
    · exact h σ hσ e (ht v e hc)
    · exact h τ hτ e hl
  · exact hl

/-- **When the entry of a page stays right.** A call that flushes `a` leaves no stale entry
for the page of `v` exactly when `a` lies in the page, or nothing else can be loaded for the
page at any stage. What was cached before does not matter: the page could be loaded before
the first store. -/
theorem staysCoherent_iff {stages : List Paging} {σ σ' : Paging} {t : Tlb} (ht : Coherent P σ t)
    (hσ : σ ∈ stages) {v a : ℕ} (hflush : σ'.flushed = a :: σ.flushed) :
    StaysCoherent P stages σ σ' t v ↔ (canonical a = true ∧ pageNumber a = pageNumber v) ∨
      ∀ τ ∈ stages, ∀ e, τ.lookup P v = some e → σ'.lookup P v = some e := by
  constructor
  · intro h
    by_cases hhit : canonical a = true ∧ pageNumber a = pageNumber v
    · exact .inl hhit
    · refine .inr fun τ hτ e he => ?_
      obtain ⟨s, hall, hs⟩ := exists_loadsAll hτ he t
      refine h s _ hall (loads_refl σ' _) e ?_
      rw [Tlb.flush_cons hflush, Tlb.invlpg]
      by_cases hc : canonical a = true
      · rw [if_pos hc, Function.update_of_ne fun hp => hhit ⟨hc, hp.symm⟩, hs]
      · rw [if_neg hc, hs]
  · rintro (⟨hc, hp⟩ | h)
    · intro s t' _ hload e he
      rcases hload.cached he with hs | hl
      · rw [Tlb.flush_cons hflush, Tlb.invlpg, if_pos hc, hp, Function.update_self] at hs
        exact absurd hs (by simp)
      · exact hl
    · exact staysCoherent_of_stages ht hσ h

/-! ## The operand of `set_page_permission` -/

theorem leafFlags_noExec (isOs w : Bool) (e : Entry) :
    leafFlags isOs w false e = leafFlags isOs w true e ||| noExecBit := by
  cases w with
  | true => rfl
  | false =>
      have hz : noExecBit &&& ~~~readWriteBit = noExecBit := by decide
      simp only [leafFlags, Bool.false_eq_true, if_false, if_true]
      rw [BitVec.and_comm, BitVec.and_or_distrib_left, BitVec.and_comm, BitVec.and_comm _ noExecBit,
        hz]

/-- An executable leaf is its frame address with flags in the low bits. -/
theorem toNat_leafFlags (isOs w : Bool) (e : Entry) :
    ∃ c < 4096, (leafFlags isOs w true e).toNat = frameOf e + c := by
  have hflags : leafFlags isOs w true e = (e &&& addressMask) ||| leafFlags isOs w true 0 := by
    have hm : addressMask &&& ~~~readWriteBit = addressMask := by decide
    cases w with
    | true =>
        simp only [leafFlags, if_true, setFlags_eq]
        simp
    | false =>
        simp only [leafFlags, Bool.false_eq_true, if_false, if_true, setFlags_eq]
        rw [BitVec.and_comm, BitVec.and_or_distrib_left, BitVec.and_comm _ (e &&& addressMask),
          BitVec.and_assoc, hm, BitVec.and_comm _ (mapFlags (!isOs))]
        simp
  have hsmall : (leafFlags isOs w true 0).toNat < 4096 := by
    cases isOs <;> cases w <;> decide
  refine ⟨_, hsmall, ?_⟩
  rw [hflags, BitVec.toNat_or, ← frameOf, frameOf_eq, Nat.mul_comm,
    ← Nat.two_pow_add_eq_or_of_lt hsmall]

/-- What `set_page_permission` flushes: the page of the frame, if the page is executable,
and otherwise nothing. -/
theorem flushes_leafFlags (isOs w x : Bool) (e : Entry) (v : ℕ) :
    (canonical (leafFlags isOs w x e).toNat = true ∧
        pageNumber (leafFlags isOs w x e).toNat = pageNumber v) ↔
      x = true ∧ frameOf e = pageNumber v * pageSize := by
  obtain ⟨c, hc, hexec⟩ := toNat_leafFlags isOs w e
  obtain ⟨q, hq, hframe⟩ : ∃ q < 2 ^ 28, frameOf e = q * 4096 :=
    ⟨_, Nat.mod_lt _ (by decide), frameOf_eq e⟩
  rw [hframe] at hexec ⊢
  cases x with
  | true =>
      have hcan : canonical (leafFlags isOs w true e).toNat = true := by
        rw [hexec, canonical, Bool.or_eq_true]
        left
        simp only [decide_eq_true_eq]
        omega
      rw [hcan, hexec, pageNumber, pageSize]
      generalize pageNumber v = n
      simp only [true_and]
      omega
  | false =>
      have hlt : q * 4096 + c < 2 ^ 63 := by omega
      have hcan : canonical (leafFlags isOs w false e).toNat = false := by
        rw [leafFlags_noExec, BitVec.toNat_or, hexec, Nat.or_comm,
          show noExecBit.toNat = 2 ^ 63 * 1 from rfl, ← Nat.two_pow_add_eq_or_of_lt hlt, canonical,
          Bool.or_eq_false_iff]
        simp only [decide_eq_false_iff_not]
        omega
      simp [hcan]

theorem flushed_setPagePermission (σ : Paging) (v : ℕ) (isOs w x : Bool) :
    ∃ e, frameOf e = frameOf (σ.entry (σ.leafPlace P v)) ∧
      (σ.setPagePermission P v isOs w x).flushed = (leafFlags isOs w x e).toNat :: σ.flushed := by
  refine ⟨_, frameOf_flagged (P := P) σ v isOs 3 (σ.leafPlace P v), ?_⟩
  rw [setPagePermission_eq]
  rfl

/-! ## Coherence -/

theorem setPagePermission_staysCoherent {σ : Paging} {t : Tlb} (ht : Coherent P σ t) (addr : ℕ)
    (isOs w x : Bool) :
    StaysCoherent P (σ.setPagePermissionStores P addr isOs w x) σ
        (σ.setPagePermission P addr isOs w x) t addr ↔
      (x = true ∧ frameOf (σ.entry (σ.leafPlace P addr)) = pageNumber addr * pageSize) ∨
        (w = true ∧ x = true ∧ Settled P σ addr ⟨isOs, true, true⟩) := by
  obtain ⟨e, he, hflush⟩ := flushed_setPagePermission (P := P) σ addr isOs w x
  have hmem : σ ∈ σ.setPagePermissionStores P addr isOs w x := List.mem_cons_self ..
  rw [staysCoherent_iff ht hmem hflush, flushes_leafFlags, he, setPagePermissionStores_lookup_iff]

theorem vmmMapMemory_staysCoherent (hP : P.Valid) {σ : Paging} (h : WellFormed P σ) {t : Tlb}
    (ht : Coherent P σ t) {flags : Entry} (hF : FlagWord flags) (physical v : ℕ)
    (hsupply : σ.lackingTables P v ≤ σ.freeFrames.card) :
    StaysCoherent P (σ.vmmMapMemoryStores P physical v flags) σ
        (σ.vmmMapMemory P physical v flags) t v ↔
      (Mapped P σ v → (canonical physical = true ∧ pageNumber physical = pageNumber v) ∨
        σ.rights P v = ⟨isUser flags, isWritable flags, false⟩) := by
  have hmem : σ ∈ σ.vmmMapMemoryStores P physical v flags := List.mem_cons_self ..
  by_cases hm : Mapped P σ v
  · have hflush : (σ.vmmMapMemory P physical v flags).flushed = physical :: σ.flushed := by
      rw [(vmmMapMemory_of_mapped hF hm physical).2]
      rfl
    rw [staysCoherent_iff ht hmem hflush, vmmMapMemoryStores_lookup_iff hF hm, imp_iff_right hm]
  · refine iff_of_true (staysCoherent_of_stages ht hmem fun τ hτ e he => ?_) fun hc => absurd hc hm
    rcases lookup_stores_of_unmapped hP h hF hm physical hsupply hτ with hnone | rfl
    · rw [hnone] at he
      exact absurd he (by simp)
    · exact he

/-- A buffer that holds the page at `0x18000` of the sample image and nothing else. -/
def sampleTlb : Tlb := fun p => if p = 0x18 then some (0x18000, ⟨false, true, true⟩) else none

theorem sampleTlb_coherent : Coherent Boot.sample.platform Boot.sample.paging sampleTlb := by
  intro v e he
  rw [sampleTlb] at he
  split at he
  · rename_i hv
    obtain rfl := Option.some.inj he
    have hid := (identity_boot Boot.sample).low 0x18000 (by decide)
    rw [lookup_congr _ (show pageNumber v = pageNumber 0x18000 from hv), lookup, hid]
    decide +kernel
  · exact absurd he (by simp)

end Paging
end BootableKernel
