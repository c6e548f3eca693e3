import BootableKernel.Lib.Countdown
import BootableKernel.VGA.Copy

/-!
# Copying memory

`memcpy.asm` has two routines. `kmemcpy_128` copies blocks of 128 bytes through eight
vector registers. `kmemcpy` does the same for most of the bytes, then copies vectors of 16
bytes, then single bytes with `rep movsb`; what remains is handed on in `rdx` by masks.

Memory is bytes here, and every access is recorded. The vector moves fault at an address
that is not a multiple of 16. `rcx` and `rdx` only count, so they are arguments of the
loops. Direction flag clear is what the calling convention promises for `movsb`.
-/

namespace BootableKernel
namespace Memcpy

open ByteMemory Loop

/-- A load or a store of so many bytes. -/
structure Access where
  store : Bool
  address : BitVec 64
  size : ℕ

structure State where
  rdi : BitVec 64
  rsi : BitVec 64
  xmm : Xmm
  mem : ByteMemory
  /-- The latest first. -/
  accesses : List Access

inductive Op where
  | prefetchnta (offset : BitVec 64)
  /-- `movdqa xmm, [rsi + offset]`. -/
  | movdqa (r : Fin 16) (offset : BitVec 64)
  /-- `movntdq [rdi + offset], xmm`. -/
  | movntdq (offset : BitVec 64) (r : Fin 16)
  | addRsi (n : BitVec 64)
  | addRdi (n : BitVec 64)
  | movsb

/-- One instruction; `none` is a fault. -/
def exec : Op → State → Option State
  | .prefetchnta _, s => some s
  | .movdqa r offset, s =>
      let a := s.rsi + offset
      if a.toNat % 16 = 0 then
        some { s with
          xmm := Function.update s.xmm r (s.mem.read 128 a)
          accesses := ⟨false, a, 16⟩ :: s.accesses }
      else none
  | .movntdq offset r, s =>
      let a := s.rdi + offset
      if a.toNat % 16 = 0 then
        some { s with
          mem := s.mem.write a (s.xmm r)
          accesses := ⟨true, a, 16⟩ :: s.accesses }
      else none
  | .addRsi n, s => some { s with rsi := s.rsi + n }
  | .addRdi n, s => some { s with rdi := s.rdi + n }
  | .movsb, s =>
      some { s with
        mem := s.mem.write s.rdi (s.mem.read 8 s.rsi)
        rsi := s.rsi + 1
        rdi := s.rdi + 1
        accesses := ⟨true, s.rdi, 1⟩ :: ⟨false, s.rsi, 1⟩ :: s.accesses }

/-- Instructions one after the other. -/
def run : List Op → State → Option State
  | [], s => some s
  | op :: ops, s => (exec op s).bind (run ops)

/-- The body of `.loop` and of `.loop_128`. -/
def block128 : List Op :=
  [ .prefetchnta 128, .prefetchnta 160, .prefetchnta 192, .prefetchnta 224,
    -- from the source to registers
    .movdqa 0 0, .movdqa 1 16, .movdqa 2 32, .movdqa 3 48,
    .movdqa 4 64, .movdqa 5 80, .movdqa 6 96, .movdqa 7 112,
    -- from registers to the destination
    .movntdq 0 0, .movntdq 16 1, .movntdq 32 2, .movntdq 48 3,
    .movntdq 64 4, .movntdq 80 5, .movntdq 96 6, .movntdq 112 7,
    .addRsi 128, .addRdi 128 ]

/-- The body of `.loop_16`. -/
def block16 : List Op := [ .movdqa 0 0, .movntdq 0 0, .addRsi 16, .addRdi 16 ]

/-- `kmemcpy_128`, with the count in `rdx`. -/
def kmemcpy128 (rdx : BitVec 64) (s : State) : Option State :=
  countdown (run block128) (rdx >>> 7) s

/-- `kmemcpy`, with the count in `rdx`. -/
def kmemcpy (rdx : BitVec 64) (s : State) : Option State :=
  (countdownFrom (run block128) (rdx >>> 7) s).bind fun s =>
  -- the rest, up to 128 bytes
  let rdx := rdx &&& 0x7f
  (countdownFrom (run block16) (rdx >>> 4) s).bind fun s =>
  -- the rest, up to 16 bytes
  let rdx := rdx &&& 0x0f
  countdownFrom (run [.movsb]) rdx s

/-- The state on entry. -/
def entry (mem : ByteMemory) (xmm : Xmm) (dst src : BitVec 64) : State :=
  ⟨dst, src, xmm, mem, []⟩

/-! ## Ranges -/

/-- Two ranges of `n` bytes that do not overlap. -/
def Apart (dst src : BitVec 64) (n : ℕ) : Prop :=
  ∀ i < n, ∀ j < n, dst + BitVec.ofNat 64 i ≠ src + BitVec.ofNat 64 j

/-- A load lies in the source and a store in the destination. -/
def Access.Inside (a : Access) (dst src : BitVec 64) (n : ℕ) : Prop :=
  (a.address - if a.store then dst else src).toNat + a.size ≤ n

variable {dst src : BitVec 64} {n k : ℕ}

theorem Apart.mono (h : Apart dst src n) (hk : k ≤ n) : Apart dst src k :=
  fun i hi j hj => h i (by omega) j (by omega)

/-- What remains after `k` bytes. -/
theorem Apart.advance (h : Apart dst src (k + n)) :
    Apart (dst + BitVec.ofNat 64 k) (src + BitVec.ofNat 64 k) n := by
  intro i hi j hj
  rw [ofNat_add_assoc, ofNat_add_assoc]
  exact h (k + i) (by omega) (k + j) (by omega)

/-- A byte of the source is not within the destination. -/
theorem Apart.le_dist (h : Apart dst src n) {j : ℕ} (hj : j < n) :
    n ≤ (src + BitVec.ofNat 64 j - dst).toNat := by
  by_contra hlt
  exact h _ (Nat.not_le.mp hlt) j hj (add_ofNat_sub dst _)

/-! ## Blocks -/

/-- From `s` to `t`, `n` bytes were copied and both pointers moved on. -/
structure Moved (s t : State) (n : ℕ) : Prop where
  rdi : t.rdi = s.rdi + BitVec.ofNat 64 n
  rsi : t.rsi = s.rsi + BitVec.ofNat 64 n
  mem : t.mem = overlay s.mem s.rdi s.mem s.rsi n
  accesses : ∀ a ∈ t.accesses, a ∈ s.accesses ∨ a.Inside s.rdi s.rsi n

/-- Both pointers are multiples of 16. -/
def Aligned (s : State) : Prop := s.rdi.toNat % 16 = 0 ∧ s.rsi.toNat % 16 = 0

@[simp] theorem run_append (ops ops' : List Op) (s : State) :
    run (ops ++ ops') s = (run ops s).bind (run ops') := by
  induction ops generalizing s with
  | nil => rfl
  | cons op ops ih =>
      simp only [List.cons_append, run]
      cases exec op s with
      | none => rfl
      | some t => exact ih t

/-- Loads of the first `q` vectors of the source. -/
def loads (q : ℕ) : List Op :=
  (List.range q).map fun r => .movdqa (Fin.ofNat 16 r) (BitVec.ofNat 64 (16 * r))

/-- Stores of the first `q` vector registers. -/
def stores (q : ℕ) : List Op :=
  (List.range q).map fun r => .movntdq (BitVec.ofNat 64 (16 * r)) (Fin.ofNat 16 r)

theorem aligned_add {a : BitVec 64} (h : a.toNat % 16 = 0) (r : ℕ) :
    (a + BitVec.ofNat 64 (16 * r)).toNat % 16 = 0 := by
  rw [BitVec.toNat_add, BitVec.toNat_ofNat]
  omega

theorem inside_load {s : State} {q r : ℕ} (hr : r < q) (hq : q ≤ 16) :
    Access.Inside ⟨false, s.rsi + BitVec.ofNat 64 (16 * r), 16⟩ s.rdi s.rsi (16 * q) := by
  simp only [Access.Inside, Bool.false_eq_true, if_false]
  rw [sub_self_add (by omega)]
  omega

theorem inside_store {s : State} {q r : ℕ} (hr : r < q) (hq : q ≤ 16) :
    Access.Inside ⟨true, s.rdi + BitVec.ofNat 64 (16 * r), 16⟩ s.rdi s.rsi (16 * q) := by
  simp only [Access.Inside, if_true]
  rw [sub_self_add (by omega)]
  omega

@[simp] theorem run_singleton (op : Op) : run [op] = exec op := by
  funext s
  cases h : exec op s <;> simp [run, h]

theorem run_concat (ops : List Op) (op : Op) (s : State) :
    run (ops ++ [op]) s = (run ops s).bind (exec op) := by
  rw [run_append, run_singleton]

theorem loads_succ (q : ℕ) :
    loads (q + 1) = loads q ++ [.movdqa (Fin.ofNat 16 q) (BitVec.ofNat 64 (16 * q))] := by
  rw [loads, List.range_succ, List.map_append]
  rfl

theorem stores_succ (q : ℕ) :
    stores (q + 1) = stores q ++ [.movntdq (BitVec.ofNat 64 (16 * q)) (Fin.ofNat 16 q)] := by
  rw [stores, List.range_succ, List.map_append]
  rfl

theorem Access.Inside.mono {a : Access} (h : a.Inside dst src n) (hk : n ≤ k) :
    a.Inside dst src k :=
  Nat.le_trans h hk

/-- What the loads of `q` vectors leave: the registers hold the source. -/
structure Loaded (s t : State) (q : ℕ) : Prop where
  rdi : t.rdi = s.rdi
  rsi : t.rsi = s.rsi
  mem : t.mem = s.mem
  xmm : ∀ r < q, t.xmm (Fin.ofNat 16 r) = s.mem.read 128 (s.rsi + BitVec.ofNat 64 (16 * r))
  accesses : ∀ a ∈ t.accesses, a ∈ s.accesses ∨ a.Inside s.rdi s.rsi (16 * q)

theorem run_loads {s : State} (h : s.rsi.toNat % 16 = 0) {q : ℕ} (hq : q ≤ 16) :
    ∃ t, run (loads q) s = some t ∧ Loaded s t q := by
  induction q with
  | zero => exact ⟨s, rfl, rfl, rfl, rfl, by simp, fun a ha => .inl ha⟩
  | succ q ih =>
      obtain ⟨t, ht, hload⟩ := ih (by omega)
      have halign : (t.rsi + BitVec.ofNat 64 (16 * q)).toNat % 16 = 0 := by
        rw [hload.rsi]
        exact aligned_add h q
      let a := t.rsi + BitVec.ofNat 64 (16 * q)
      refine ⟨{ t with
        xmm := Function.update t.xmm (Fin.ofNat 16 q) (t.mem.read 128 a)
        accesses := ⟨false, a, 16⟩ :: t.accesses }, ?_, hload.rdi, hload.rsi, hload.mem, ?_, ?_⟩
      · rw [loads_succ, run_concat, ht]
        exact if_pos halign
      · intro r hr
        change Function.update t.xmm (Fin.ofNat 16 q) (t.mem.read 128 a) (Fin.ofNat 16 r) = _
        by_cases hrq : r = q
        · subst hrq
          rw [Function.update_self, hload.mem, ← hload.rsi]
        · have hne : Fin.ofNat 16 r ≠ Fin.ofNat 16 q := by
            intro heq
            have hval := congrArg Fin.val heq
            simp only [Fin.val_ofNat] at hval
            omega
          rw [Function.update_of_ne hne]
          exact hload.xmm r (by omega)
      · intro a ha
        rcases List.mem_cons.mp ha with rfl | ha
        · right
          change Access.Inside ⟨false, t.rsi + BitVec.ofNat 64 (16 * q), 16⟩ _ _ _
          rw [hload.rsi]
          exact inside_load (Nat.lt_succ_self q) hq
        · rcases hload.accesses a ha with hold | hnew
          · exact Or.inl hold
          · exact Or.inr (hnew.mono (by omega))

/-- What the stores of `q` registers leave, when these hold the bytes of `m` from `b` on. -/
structure Stored (s t : State) (m : ByteMemory) (b : BitVec 64) (q : ℕ) : Prop where
  rdi : t.rdi = s.rdi
  rsi : t.rsi = s.rsi
  xmm : t.xmm = s.xmm
  mem : t.mem = overlay s.mem s.rdi m b (16 * q)
  accesses : ∀ a ∈ t.accesses, a ∈ s.accesses ∨ a.Inside s.rdi s.rsi (16 * q)

theorem run_stores {s : State} (h : s.rdi.toNat % 16 = 0) {m : ByteMemory} {b : BitVec 64}
    {q : ℕ} (hq : q ≤ 16)
    (hxmm : ∀ r < q, s.xmm (Fin.ofNat 16 r) = m.read 128 (b + BitVec.ofNat 64 (16 * r))) :
    ∃ t, run (stores q) s = some t ∧ Stored s t m b q := by
  induction q with
  | zero => exact ⟨s, rfl, rfl, rfl, rfl, overlay_zero.symm, fun a ha => .inl ha⟩
  | succ q ih =>
      obtain ⟨t, ht, hstore⟩ := ih (by omega) (fun r hr => hxmm r (by omega))
      have halign : (t.rdi + BitVec.ofNat 64 (16 * q)).toNat % 16 = 0 := by
        rw [hstore.rdi]
        exact aligned_add h q
      let a := t.rdi + BitVec.ofNat 64 (16 * q)
      refine ⟨{ t with
        mem := t.mem.write a (t.xmm (Fin.ofNat 16 q))
        accesses := ⟨true, a, 16⟩ :: t.accesses },
        ?_, hstore.rdi, hstore.rsi, hstore.xmm, ?_, ?_⟩
      · rw [stores_succ, run_concat, ht]
        exact if_pos halign
      · change t.mem.write (t.rdi + BitVec.ofNat 64 (16 * q)) (t.xmm (Fin.ofNat 16 q)) = _
        rw [hstore.xmm, hxmm q (Nat.lt_succ_self q), write_read, hstore.mem, hstore.rdi]
        exact overlay_append (by omega)
      · intro a ha
        rcases List.mem_cons.mp ha with rfl | ha
        · right
          change Access.Inside ⟨true, t.rdi + BitVec.ofNat 64 (16 * q), 16⟩ _ _ _
          rw [hstore.rdi]
          exact inside_store (Nat.lt_succ_self q) hq
        · rcases hstore.accesses a ha with hold | hnew
          · exact Or.inl hold
          · exact Or.inr (hnew.mono (by omega))

/-- The body of a vector loop: `q` loads, `q` stores, and the pointers move on. -/
def vectors (q : ℕ) : List Op :=
  loads q ++ (stores q ++
    [.addRsi (BitVec.ofNat 64 (16 * q)), .addRdi (BitVec.ofNat 64 (16 * q))])

theorem run_vectors {s : State} (h : Aligned s) {q : ℕ} (hq : q ≤ 16) :
    ∃ t, run (vectors q) s = some t ∧ Moved s t (16 * q) := by
  obtain ⟨t, ht, hload⟩ := run_loads h.2 hq
  obtain ⟨u, hu, hstore⟩ := run_stores (s := t) (by rw [hload.rdi]; exact h.1) hq hload.xmm
  refine ⟨{ u with
    rsi := u.rsi + BitVec.ofNat 64 (16 * q)
    rdi := u.rdi + BitVec.ofNat 64 (16 * q) }, ?_, ?_, ?_, ?_, ?_⟩
  · rw [vectors, run_append, ht, Option.bind_some, run_append, hu]
    rfl
  · rw [hstore.rdi, hload.rdi]
  · rw [hstore.rsi, hload.rsi]
  · rw [hstore.mem, hload.mem, hload.rdi]
  · intro a ha
    rcases hstore.accesses a ha with hold | hnew
    · exact hload.accesses a hold
    · right
      rw [hload.rdi, hload.rsi] at hnew
      exact hnew

/-- The prefetches of a block. -/
def prefetches : List Op :=
  [.prefetchnta 128, .prefetchnta 160, .prefetchnta 192, .prefetchnta 224]

@[simp] theorem run_prefetches (s : State) : run prefetches s = some s := rfl

theorem block128_eq : block128 = prefetches ++ vectors 8 := rfl

theorem block16_eq : block16 = vectors 1 := rfl

theorem run_block128 {s : State} (h : Aligned s) :
    ∃ t, run block128 s = some t ∧ Moved s t 128 := by
  rw [block128_eq, run_append, run_prefetches, Option.bind_some]
  exact run_vectors h (q := 8) (by decide)

theorem run_block16 {s : State} (h : Aligned s) :
    ∃ t, run block16 s = some t ∧ Moved s t 16 := by
  rw [block16_eq]
  exact run_vectors h (q := 1) (by decide)

theorem run_movsb (s : State) : ∃ t, run [.movsb] s = some t ∧ Moved s t 1 := by
  refine ⟨_, rfl, rfl, rfl, write_read s.mem s.mem s.rdi s.rsi, ?_⟩
  intro a ha
  rcases List.mem_cons.mp ha with rfl | ha
  · right
    simp [Access.Inside]
  · rcases List.mem_cons.mp ha with rfl | ha
    · right
      simp [Access.Inside]
    · exact Or.inl ha

/-! ## Loops -/

variable {s t u : State}

theorem Moved.refl (s : State) : Moved s s 0 :=
  ⟨by simp, by simp, overlay_zero.symm, fun _ ha => .inl ha⟩

/-- An access of the second piece is one of the whole. -/
theorem Access.Inside.advance {a : Access}
    (h : a.Inside (dst + BitVec.ofNat 64 n) (src + BitVec.ofNat 64 n) k) :
    a.Inside dst src (n + k) := by
  rw [Access.Inside] at h ⊢
  cases hstore : a.store with
  | false =>
      have hle := toNat_sub_le a.address src n
      simp only [hstore, Bool.false_eq_true, if_false] at h ⊢
      omega
  | true =>
      have hle := toNat_sub_le a.address dst n
      simp only [hstore, if_true] at h ⊢
      omega

/-- Two pieces one after the other: what the second one reads is not what the first one
wrote. -/
theorem Moved.trans (hst : Moved s t n) (htu : Moved t u k) (hapart : Apart s.rdi s.rsi (n + k))
    (hlen : n + k ≤ 2 ^ 64) : Moved s u (n + k) := by
  constructor
  · rw [htu.rdi, hst.rdi, ofNat_add_assoc]
  · rw [htu.rsi, hst.rsi, ofNat_add_assoc]
  · have hsrc : overlay t.mem t.rdi t.mem t.rsi k = overlay t.mem t.rdi s.mem t.rsi k := by
      funext x
      rw [overlay, overlay]
      split
      · rename_i hx
        have haddr : s.rsi + BitVec.ofNat 64 n + (x - t.rdi) =
            s.rsi + BitVec.ofNat 64 (n + (x - t.rdi).toNat) := by
          rw [← ofNat_add_assoc, BitVec.ofNat_toNat, BitVec.setWidth_eq]
        have hdist := hapart.le_dist (j := n + (x - t.rdi).toNat) (by omega)
        rw [hst.mem, hst.rsi, haddr]
        exact if_neg (by omega)
      · rfl
    rw [htu.mem, hsrc, hst.mem, hst.rdi, hst.rsi]
    exact overlay_append hlen
  · intro a ha
    rcases htu.accesses a ha with hold | hnew
    · rcases hst.accesses a hold with hold | hnew
      · exact Or.inl hold
      · exact Or.inr (hnew.mono (by omega))
    · right
      rw [hst.rdi, hst.rsi] at hnew
      exact hnew.advance

/-- Pointers that move on by multiples of 16 stay aligned. -/
theorem Moved.aligned (h : Moved s t n) (hn : n % 16 = 0) (hs : Aligned s) : Aligned t := by
  rw [Aligned, h.rdi, h.rsi, BitVec.toNat_add, BitVec.toNat_add, BitVec.toNat_ofNat]
  rw [Aligned] at hs
  omega

/-- One more round of a loop that moves `size` bytes in each. -/
theorem moved_round {body : State → Option State} {size : ℕ} {P : State → Prop}
    (hbody : ∀ s, P s → ∃ t, body s = some t ∧ Moved s t size ∧ P t) {j r : ℕ} (hj : j < r)
    (hapart : Apart s.rdi s.rsi (size * r)) (hlen : size * r ≤ 2 ^ 64)
    (h : Moved s t (size * j) ∧ P t) :
    ∃ u, body t = some u ∧ Moved s u (size * (j + 1)) ∧ P u := by
  obtain ⟨u, hu, hmove, hP⟩ := hbody t h.2
  have hle : size * (j + 1) ≤ size * r := Nat.mul_le_mul_left size hj
  rw [Nat.mul_succ] at hle ⊢
  exact ⟨u, hu, h.1.trans hmove (hapart.mono hle) (by omega), hP⟩

theorem countdownFrom_moved {body : State → Option State} {size : ℕ} {P : State → Prop}
    (hbody : ∀ s, P s → ∃ t, body s = some t ∧ Moved s t size ∧ P t) {c : BitVec 64}
    (hapart : Apart s.rdi s.rsi (size * c.toNat)) (hlen : size * c.toNat ≤ 2 ^ 64) (hs : P s) :
    ∃ t, countdownFrom body c s = some t ∧ Moved s t (size * c.toNat) ∧ P t :=
  countdownFrom_spec (fun j t => Moved s t (size * j) ∧ P t) ⟨Moved.refl s, hs⟩
    (fun _ _ hj h => moved_round hbody hj hapart hlen h)

theorem countdown_moved {body : State → Option State} {size : ℕ} {P : State → Prop}
    (hbody : ∀ s, P s → ∃ t, body s = some t ∧ Moved s t size ∧ P t) {c : BitVec 64}
    (hapart : Apart s.rdi s.rsi (size * rounds c)) (hlen : size * rounds c ≤ 2 ^ 64)
    (hs : P s) :
    ∃ t, countdown body c s = some t ∧ Moved s t (size * rounds c) ∧ P t := by
  have h := countdown_spec (c := c) (fun j t => Moved s t (size * j) ∧ P t) 0
    ⟨Moved.refl s, hs⟩ (fun j t _ hj h => moved_round hbody (by omega) hapart hlen h)
  rwa [Nat.zero_add] at h

theorem block128_step (s : State) (hs : Aligned s) :
    ∃ t, run block128 s = some t ∧ Moved s t 128 ∧ Aligned t := by
  obtain ⟨t, ht, hmove⟩ := run_block128 hs
  exact ⟨t, ht, hmove, hmove.aligned (by decide) hs⟩

theorem block16_step (s : State) (hs : Aligned s) :
    ∃ t, run block16 s = some t ∧ Moved s t 16 ∧ Aligned t := by
  obtain ⟨t, ht, hmove⟩ := run_block16 hs
  exact ⟨t, ht, hmove, hmove.aligned (by decide) hs⟩

theorem movsb_step (s : State) (_ : True) :
    ∃ t, run [.movsb] s = some t ∧ Moved s t 1 ∧ True := by
  obtain ⟨t, ht, hmove⟩ := run_movsb s
  exact ⟨t, ht, hmove, trivial⟩

/-! ## The routines -/

section Counts

variable (count : BitVec 64)

theorem toNat_blocks : (count >>> 7).toNat = count.toNat / 128 := by
  rw [BitVec.toNat_ushiftRight, Nat.shiftRight_eq_div_pow]

theorem toNat_rest128 : (count &&& 0x7f).toNat = count.toNat % 128 := by
  rw [BitVec.toNat_and]
  exact Nat.and_two_pow_sub_one_eq_mod count.toNat 7

theorem toNat_vectors : ((count &&& 0x7f) >>> 4).toNat = count.toNat % 128 / 16 := by
  rw [BitVec.toNat_ushiftRight, Nat.shiftRight_eq_div_pow, toNat_rest128]

theorem toNat_rest16 : ((count &&& 0x7f) &&& 0x0f).toNat = count.toNat % 128 % 16 := by
  rw [BitVec.toNat_and, toNat_rest128]
  exact Nat.and_two_pow_sub_one_eq_mod (count.toNat % 128) 4

end Counts

variable {count : BitVec 64}

/-- `kmemcpy` returns, with `count` bytes moved. -/
theorem kmemcpy_moved (hs : Aligned s) (hapart : Apart s.rdi s.rsi count.toNat) :
    ∃ t, kmemcpy count s = some t ∧ Moved s t count.toNat := by
  have hcount := count.isLt
  -- the three parts
  have h1 : 128 * (count >>> 7).toNat = 128 * (count.toNat / 128) := by rw [toNat_blocks]
  have h2 : 16 * ((count &&& 0x7f) >>> 4).toNat = 16 * (count.toNat % 128 / 16) := by
    rw [toNat_vectors]
  have h3 : 1 * ((count &&& 0x7f) &&& 0x0f).toNat = count.toNat % 128 % 16 := by
    rw [toNat_rest16, Nat.one_mul]
  obtain ⟨t, ht, hst, haligned⟩ := countdownFrom_moved (s := s) (c := count >>> 7)
    block128_step (hapart.mono (by omega)) (by omega) hs
  rw [h1] at hst
  have hrest : Apart t.rdi t.rsi (count.toNat % 128) := by
    rw [hst.rdi, hst.rsi]
    exact Apart.advance (hapart.mono (by omega))
  obtain ⟨u, hu, htu, -⟩ := countdownFrom_moved (s := t) (c := (count &&& 0x7f) >>> 4)
    block16_step (hrest.mono (by omega)) (by omega) haligned
  rw [h2] at htu
  have hrest' : Apart u.rdi u.rsi (count.toNat % 128 % 16) := by
    rw [htu.rdi, htu.rsi]
    exact Apart.advance (hrest.mono (by omega))
  obtain ⟨v, hv, huv, -⟩ := countdownFrom_moved (s := u) (c := (count &&& 0x7f) &&& 0x0f)
    movsb_step (hrest'.mono (by omega)) (by omega) trivial
  rw [h3] at huv
  have hsum : count.toNat =
      128 * (count.toNat / 128) + 16 * (count.toNat % 128 / 16) + count.toNat % 128 % 16 := by
    omega
  refine ⟨v, ?_, ?_⟩
  · simp only [kmemcpy, ht, hu, hv, Option.bind_some]
  · have hsu := hst.trans htu (hapart.mono (by omega)) (by omega)
    rw [hsum] at hapart ⊢
    exact hsu.trans huv hapart (by omega)

/-- `kmemcpy_128` moves whole blocks, if there is one. -/
theorem kmemcpy128_moved (hs : Aligned s) (hapart : Apart s.rdi s.rsi count.toNat)
    (h128 : 128 ≤ count.toNat) :
    ∃ t, kmemcpy128 count s = some t ∧ Moved s t (128 * (count.toNat / 128)) := by
  have hcount := count.isLt
  have hblocks : count >>> 7 ≠ 0 := by
    intro hzero
    have hdiv : 0 = count.toNat / 128 := by
      rw [← toNat_blocks, hzero]
      rfl
    omega
  have hrounds : rounds (count >>> 7) = count.toNat / 128 := by
    rw [rounds_of_ne_zero hblocks, toNat_blocks]
  obtain ⟨t, ht, hst, -⟩ := countdown_moved (s := s) (c := count >>> 7) block128_step
    (hapart.mono (by omega)) (by omega) hs
  rw [hrounds] at hst
  exact ⟨t, ht, hst⟩

/-- For aligned ranges that do not overlap, `kmemcpy` returns with the bytes copied and all
others as they were, and it accessed only the two ranges. `kmemcpy_128` ends with the same
memory when the count is a positive multiple of 128. -/
theorem kmemcpy_copies (mem : ByteMemory) (xmm : Xmm) (dst src count : BitVec 64)
    (hdst : dst.toNat % 16 = 0) (hsrc : src.toNat % 16 = 0) (hapart : Apart dst src count.toNat) :
    ∃ t, kmemcpy count (entry mem xmm dst src) = some t ∧
      (∀ i < count.toNat,
        t.mem (dst + BitVec.ofNat 64 i) = mem (src + BitVec.ofNat 64 i)) ∧
      (∀ x, (∀ i < count.toNat, x ≠ dst + BitVec.ofNat 64 i) → t.mem x = mem x) ∧
      (∀ a ∈ t.accesses, a.Inside dst src count.toNat) ∧
      (count ≠ 0 → 128 ∣ count.toNat →
        ∃ u, kmemcpy128 count (entry mem xmm dst src) = some u ∧ u.mem = t.mem) := by
  have haligned : Aligned (entry mem xmm dst src) := ⟨hdst, hsrc⟩
  obtain ⟨t, ht, hmoved⟩ := kmemcpy_moved haligned hapart
  have hmem : t.mem = overlay mem dst mem src count.toNat := hmoved.mem
  have hcount := count.isLt
  refine ⟨t, ht, ?_, ?_, ?_, ?_⟩
  · intro i hi
    rw [hmem]
    exact overlay_add hi (by omega)
  · intro x hx
    rw [hmem]
    exact overlay_of_ne hx
  · intro a ha
    rcases hmoved.accesses a ha with hold | hnew
    · cases hold
    · exact hnew
  · intro hpos hdvd
    have hne : count.toNat ≠ 0 := fun h => hpos (BitVec.eq_of_toNat_eq h)
    obtain ⟨u, hu, hmoved'⟩ := kmemcpy128_moved haligned hapart (by omega)
    rw [Nat.mul_div_cancel' hdvd] at hmoved'
    exact ⟨u, hu, hmoved'.mem.trans hmoved.mem.symm⟩

/-- Ranges one after the other do not overlap. -/
theorem apart_of_le (h : dst.toNat + n ≤ src.toNat) (h' : src.toNat + n ≤ 2 ^ 64) :
    Apart dst src n := by
  intro i hi j hj heq
  have hval := congrArg BitVec.toNat heq
  simp only [BitVec.toNat_add, BitVec.toNat_ofNat] at hval
  omega

/-- A page and a half with a remainder, between two places. -/
theorem kmemcpy_copies_example :
    ∃ t, kmemcpy 6167 (entry (fun x => x.setWidth 8) (fun _ => 0) 0x1000 0x8000) = some t ∧
      ∀ i < 6167, t.mem (0x1000 + BitVec.ofNat 64 i) = (0x8000 + BitVec.ofNat 64 i).setWidth 8 := by
  obtain ⟨t, ht, hcopied, -⟩ := kmemcpy_copies (fun x => x.setWidth 8) (fun _ => 0) 0x1000 0x8000
    6167 (by decide) (by decide) (apart_of_le (by decide) (by decide))
  exact ⟨t, ht, hcopied⟩

end Memcpy
end BootableKernel
