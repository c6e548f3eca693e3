import BootableKernel.Lib.Stack
import Mathlib.Data.BitVec

/-!
# Counted loops and copied ranges

Assembly loops count a register down and test it at the end of a round, so a counter
that starts at zero means `2 ^ w` rounds. `countdown` is that loop and `countdownFrom` the
one with a test before it. A body can fault, which ends the loop without a result. The
rules take an invariant indexed by the number of rounds; the loops end because the counter
does.

`ByteMemory.overlay` is memory with a range of bytes taken from another memory. Ranges
that are copied piece by piece put together again, and words that do not meet the range
are read as before.
-/

namespace Loop

variable {w : ℕ} {σ : Type*}

theorem toNat_sub_one {x : BitVec w} (h : x ≠ 0) : (x - 1).toNat + 1 = x.toNat := by
  have hpos : x.toNat ≠ 0 := fun h0 => h (BitVec.eq_of_toNat_eq (by simpa using h0))
  have hlt := x.isLt
  have hone : (1 : BitVec w).toNat = 1 := by
    have hlt1 : 1 < 2 ^ w := by omega
    exact (BitVec.toNat_ofNat 1 w).trans (Nat.mod_eq_of_lt hlt1)
  have hle : (1 : BitVec w) ≤ x := by
    rw [BitVec.le_def, hone]
    omega
  rw [BitVec.toNat_sub_of_le hle, hone]
  omega

/-- Run the body, decrement the counter, and go on while it is not zero. -/
def countdown (body : σ → Option σ) (c : BitVec w) (s : σ) : Option σ :=
  match body s with
  | none => none
  | some t => if c - 1 = 0 then some t else countdown body (c - 1) t
termination_by (c - 1).toNat
decreasing_by
  rename_i h
  have := toNat_sub_one h
  omega

/-- The same loop, skipped if the counter is zero. -/
def countdownFrom (body : σ → Option σ) (c : BitVec w) (s : σ) : Option σ :=
  if c = 0 then some s else countdown body c s

variable {body : σ → Option σ} {c : BitVec w} {s : σ}

/-- Rounds of `countdown`. -/
def rounds (c : BitVec w) : ℕ := (c - 1).toNat + 1

theorem rounds_of_ne_zero (h : c ≠ 0) : rounds c = c.toNat := toNat_sub_one h

/-- The rule for the loop with the test at its end: the body takes the invariant from one
round to the next without a fault. -/
theorem countdown_spec (inv : ℕ → σ → Prop) (k : ℕ) (h : inv k s)
    (hbody : ∀ j s, k ≤ j → j < k + rounds c → inv j s → ∃ t, body s = some t ∧ inv (j + 1) t) :
    ∃ t, countdown body c s = some t ∧ inv (k + rounds c) t := by
  induction c, s using countdown.induct body generalizing k with
  | case1 c s hs =>
      obtain ⟨t, ht, -⟩ := hbody k s le_rfl (by rw [rounds]; omega) h
      rw [hs] at ht
      cases ht
  | case2 c s t hs hc =>
      obtain ⟨t', ht, hinv⟩ := hbody k s le_rfl (by rw [rounds]; omega) h
      rw [hs] at ht
      obtain rfl := Option.some.inj ht
      refine ⟨t, ?_, ?_⟩
      · rw [countdown, hs]
        exact if_pos hc
      · rw [rounds, hc]
        exact hinv
  | case3 c s t hs hc ih =>
      obtain ⟨t', ht, hinv⟩ := hbody k s le_rfl (by rw [rounds]; omega) h
      rw [hs] at ht
      obtain rfl := Option.some.inj ht
      have hrounds : rounds c = rounds (c - 1) + 1 := by
        rw [rounds_of_ne_zero hc, rounds]
      obtain ⟨u, hu, hinv'⟩ := ih (k + 1) hinv
        (fun j s hj hj' => hbody j s (by omega) (by omega))
      refine ⟨u, ?_, ?_⟩
      · rw [countdown, hs]
        exact (if_neg hc).trans hu
      · rw [hrounds, ← Nat.add_assoc, Nat.add_right_comm]
        exact hinv'

/-- The rule for the loop with a test before it. -/
theorem countdownFrom_spec (inv : ℕ → σ → Prop) (h : inv 0 s)
    (hbody : ∀ j s, j < c.toNat → inv j s → ∃ t, body s = some t ∧ inv (j + 1) t) :
    ∃ t, countdownFrom body c s = some t ∧ inv c.toNat t := by
  by_cases hc : c = 0
  · refine ⟨s, if_pos hc, ?_⟩
    simpa [hc] using h
  · have hrounds := rounds_of_ne_zero hc
    obtain ⟨t, ht, hinv⟩ := countdown_spec (c := c) inv 0 h
      (fun j s _ hj => hbody j s (by omega))
    refine ⟨t, (if_neg hc).trans ht, ?_⟩
    rw [Nat.zero_add, hrounds] at hinv
    exact hinv

end Loop

namespace ByteMemory

variable {w : ℕ} {m m' : ByteMemory} {dst src x : BitVec 64} {n k : ℕ}

/-- The distance from a later start. -/
theorem toNat_sub_le (x a : BitVec 64) (n : ℕ) :
    (x - a).toNat ≤ (x - (a + BitVec.ofNat 64 n)).toNat + n := by
  have hsplit : x - a = x - (a + BitVec.ofNat 64 n) + BitVec.ofNat 64 n := by
    rw [← BitVec.sub_sub, BitVec.sub_add_cancel]
  rw [hsplit, BitVec.toNat_add, BitVec.toNat_ofNat]
  omega

/-- The memory `m`, with the `n` bytes from `dst` on taken from `m'`, there from `src` on. -/
def overlay (m : ByteMemory) (dst : BitVec 64) (m' : ByteMemory) (src : BitVec 64) (n : ℕ) :
    ByteMemory :=
  fun x => if (x - dst).toNat < n then m' (src + (x - dst)) else m x

theorem overlay_zero : overlay m dst m' src 0 = m := by
  funext x
  exact if_neg (Nat.not_lt_zero _)

/-- A byte of the range. -/
theorem overlay_add {i : ℕ} (hi : i < n) (hn : n ≤ 2 ^ 64) :
    overlay m dst m' src n (dst + BitVec.ofNat 64 i) = m' (src + BitVec.ofNat 64 i) := by
  have hdist : dst + BitVec.ofNat 64 i - dst = BitVec.ofNat 64 i := by
    rw [BitVec.add_comm, BitVec.add_sub_cancel]
  have hlt : (BitVec.ofNat 64 i).toNat < n := by
    rw [BitVec.toNat_ofNat, Nat.mod_eq_of_lt (by omega)]
    exact hi
  rw [overlay, hdist, if_pos hlt]

/-- A byte outside of the range. -/
theorem overlay_of_ne (h : ∀ i < n, x ≠ dst + BitVec.ofNat 64 i) :
    overlay m dst m' src n x = m x := by
  apply if_neg
  intro hlt
  exact h _ hlt (add_ofNat_sub dst x).symm

/-- A range that is copied in two pieces. -/
theorem overlay_append (h : n + k ≤ 2 ^ 64) :
    overlay (overlay m dst m' src n) (dst + BitVec.ofNat 64 n) m' (src + BitVec.ofNat 64 n) k =
      overlay m dst m' src (n + k) := by
  rcases Nat.eq_zero_or_pos k with rfl | hk
  · exact overlay_zero
  funext x
  have hn : (BitVec.ofNat 64 n).toNat = n := by
    rw [BitVec.toNat_ofNat, Nat.mod_eq_of_lt (by omega)]
  have hdist : x - (dst + BitVec.ofNat 64 n) = x - dst - BitVec.ofNat 64 n := by
    rw [← BitVec.sub_sub]
  have hsrc : src + BitVec.ofNat 64 n + (x - dst - BitVec.ofNat 64 n) = src + (x - dst) := by
    rw [BitVec.add_assoc, BitVec.add_comm (BitVec.ofNat 64 n), BitVec.sub_add_cancel]
  have hlt := (x - dst).isLt
  simp only [overlay, hdist, hsrc]
  -- the distance of `x` from the second piece
  rw [BitVec.toNat_sub, hn]
  by_cases hx : (x - dst).toNat < n
  · rw [if_neg (by omega), if_pos hx, if_pos (by omega)]
  · by_cases hx' : (x - dst).toNat < n + k
    · rw [if_pos (by omega), if_pos hx']
    · rw [if_neg (by omega), if_neg hx, if_neg hx']

/-- The bytes of a word that was read. -/
theorem extract_read (m : ByteMemory) (a : BitVec 64) (hk : k < w / 8) :
    (read w m a).extractLsb' (8 * k) 8 = m (a + BitVec.ofNat 64 k) := by
  ext b hb
  have hdiv : (8 * k + b) / 8 = k := by omega
  have hmod : (8 * k + b) % 8 = b := by omega
  rw [BitVec.getElem_extractLsb', read, getLsbD_readBytes m a _ _ (by omega), hdiv, hmod,
    decide_eq_true (show 8 * k + b < 8 * (w / 8) by omega), Bool.true_and]
  exact BitVec.getLsbD_eq_getElem hb

/-- Storing a word just read copies its bytes. -/
theorem write_read (m m' : ByteMemory) (a b : BitVec 64) :
    write m a (read w m' b) = overlay m a m' b (w / 8) := by
  funext x
  rw [write, overlay]
  split
  · rename_i h
    rw [extract_read m' b h, BitVec.ofNat_toNat, BitVec.setWidth_eq]
  · rfl

end ByteMemory
