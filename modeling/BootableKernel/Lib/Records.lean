import Mathlib.Data.BitVec

/-!
# Records in byte memory

Memory maps addresses to bytes. `load` and `store` move little-endian words of any
number of bytes, and a `Member n` is a word at a fixed place in a record of `n` bytes.
Reading a field after a store needs one of three facts: the store was to this field,
to another field of the same record, or to a record that lies apart.

## Main definitions

* `Bytes.load`, `Bytes.store` — words.
* `Bytes.copy` — a range of bytes to another place.
* `Member.get`, `Member.set` — the fields of the record at an address.
-/

/-- Bytes by address. -/
@[ext] structure Bytes where
  byte : ℕ → BitVec 8

namespace Bytes
variable {m m' : Bytes} {n k a b v x : ℕ}

/-- The value of the `n` bytes from `a` on, the lowest byte first. -/
def load (m : Bytes) : (n a : ℕ) → ℕ
  | 0, _ => 0
  | n + 1, a => (m.byte a).toNat + 256 * m.load n (a + 1)

/-- Store the low `n` bytes of `v` from `a` on. -/
def store (m : Bytes) (n a v : ℕ) : Bytes :=
  ⟨fun x => if a ≤ x ∧ x < a + n then BitVec.ofNat 8 (v / 256 ^ (x - a)) else m.byte x⟩

/-- Words are below their bound. -/
theorem load_lt (m : Bytes) (n a : ℕ) : m.load n a < 256 ^ n := by
  induction n generalizing a with
  | zero => simp [load]
  | succ n ih =>
      have hbyte := (m.byte a).isLt
      have hrest := ih (a + 1)
      rw [load, Nat.pow_succ]
      omega

/-- Bytes that agree give the same word. -/
theorem load_congr (h : ∀ i < n, m'.byte (a + i) = m.byte (a + i)) : m'.load n a = m.load n a := by
  induction n generalizing a with
  | zero => rfl
  | succ n ih =>
      have h0 : m'.byte a = m.byte a := h 0 (Nat.succ_pos n)
      have hrest : m'.load n (a + 1) = m.load n (a + 1) := by
        apply ih
        intro i hi
        have hi' := h (i + 1) (Nat.succ_lt_succ hi)
        rwa [Nat.add_comm i 1, ← Nat.add_assoc] at hi'
      rw [load, load, h0, hrest]

/-- The word made of the bytes of `v`. -/
theorem load_eq_mod (h : ∀ i < n, m.byte (a + i) = BitVec.ofNat 8 (v / 256 ^ i)) :
    m.load n a = v % 256 ^ n := by
  induction n generalizing a v with
  | zero => simp [load, Nat.mod_one]
  | succ n ih =>
      have h0 : m.byte a = BitVec.ofNat 8 v := by simpa using h 0 (Nat.succ_pos n)
      have hrest : m.load n (a + 1) = v / 256 % 256 ^ n := by
        apply ih
        intro i hi
        have hi' := h (i + 1) (Nat.succ_lt_succ hi)
        rw [Nat.add_comm i 1, ← Nat.add_assoc] at hi'
        rw [hi', Nat.div_div_eq_div_mul, ← Nat.pow_add_one']
        rw [Nat.add_comm 1 i]
      have hpow : 256 ^ (n + 1) = 256 * 256 ^ n := Nat.pow_add_one'
      have hbyte : (BitVec.ofNat 8 v).toNat = v % 256 := BitVec.toNat_ofNat v 8
      rw [load, h0, hrest, hbyte, hpow, Nat.mod_mul]

/-- The bytes of a store. -/
theorem byte_store (m : Bytes) (n a v x : ℕ) : (m.store n a v).byte x =
    if a ≤ x ∧ x < a + n then BitVec.ofNat 8 (v / 256 ^ (x - a)) else m.byte x := rfl

/-- A word just stored is read back. -/
@[simp] theorem load_store_self (m : Bytes) (n a v : ℕ) :
    (m.store n a v).load n a = v % 256 ^ n := by
  apply load_eq_mod
  intro i hi
  rw [byte_store, if_pos ⟨Nat.le_add_right a i, Nat.add_lt_add_left hi a⟩,
    Nat.add_sub_cancel_left]

/-- The bytes of a word that was read. -/
theorem ofNat_load (m : Bytes) {i : ℕ} (hi : i < n) (a : ℕ) :
    BitVec.ofNat 8 (m.load n a / 256 ^ i) = m.byte (a + i) := by
  induction n generalizing a i with
  | zero => cases hi
  | succ n ih =>
      have hbyte := (m.byte a).isLt
      cases i with
      | zero =>
          have hmod : ((m.byte a).toNat + 256 * m.load n (a + 1)) % 2 ^ 8 = (m.byte a).toNat := by
            omega
          rw [load, Nat.pow_zero, Nat.div_one]
          exact BitVec.eq_of_toNat_eq ((BitVec.toNat_ofNat _ 8).trans hmod)
      | succ i =>
          have hdiv : ((m.byte a).toNat + 256 * m.load n (a + 1)) / 256 = m.load n (a + 1) := by
            omega
          rw [load, Nat.pow_add_one', ← Nat.div_div_eq_div_mul, hdiv,
            ih (Nat.lt_of_succ_lt_succ hi), Nat.add_assoc, Nat.add_comm 1 i]

/-- Storing a word where it was read. -/
theorem store_load_self (m : Bytes) (n a : ℕ) : m.store n a (m.load n a) = m := by
  ext1
  funext x
  rw [byte_store]
  split
  · rename_i h
    rw [ofNat_load m (by omega), Nat.add_sub_cancel' h.1]
  · rfl

/-- The `n` bytes from `b` on, stored from `a` on. All are read before the first is stored. -/
def copy (m : Bytes) (n a b : ℕ) : Bytes :=
  ⟨fun x => if a ≤ x ∧ x < a + n then m.byte (b + (x - a)) else m.byte x⟩

/-- A copy changes no byte outside of its range. -/
theorem copy_of_outside (h : x < a ∨ a + n ≤ x) : (m.copy n a b).byte x = m.byte x :=
  if_neg (by omega)

/-- A copy in place changes nothing. -/
theorem copy_self (m : Bytes) (n a : ℕ) : m.copy n a a = m := by
  ext1
  funext x
  by_cases h : a ≤ x ∧ x < a + n
  · exact (if_pos h).trans (by rw [Nat.add_sub_cancel' h.1])
  · exact if_neg h

/-- A store changes no byte outside of its range. -/
theorem store_of_outside (h : x < a ∨ a + n ≤ x) : (m.store n a v).byte x = m.byte x := by
  rw [byte_store, if_neg]
  omega

/-- A word that lies apart from a store. -/
theorem load_store_of_apart (h : a + n ≤ b ∨ b + k ≤ a) :
    (m.store k b v).load n a = m.load n a := by
  apply load_congr
  intro i hi
  apply store_of_outside
  omega

end Bytes

/-- A word at a fixed place in a record of `n` bytes. -/
structure Member (n : ℕ) where
  off : ℕ
  width : ℕ
  fits : off + width ≤ n

namespace Member
variable {n k : ℕ} {m m' : Bytes} {a b v : ℕ}

/-- The field of the record at `a`. -/
def get (f : Member n) (m : Bytes) (a : ℕ) : ℕ := m.load f.width (a + f.off)

/-- Write the field of the record at `a`. -/
def set (f : Member n) (m : Bytes) (a v : ℕ) : Bytes := m.store f.width (a + f.off) v

/-- Two fields of a record that share no byte. -/
def Apart (f g : Member n) : Prop := f.off + f.width ≤ g.off ∨ g.off + g.width ≤ f.off

instance (f g : Member n) : Decidable (f.Apart g) := instDecidableOr

theorem get_lt (f : Member n) (m : Bytes) (a : ℕ) : f.get m a < 256 ^ f.width :=
  m.load_lt _ _

@[simp] theorem get_set_self (f : Member n) (m : Bytes) (a v : ℕ) :
    f.get (f.set m a v) a = v % 256 ^ f.width :=
  m.load_store_self _ _ _

theorem set_get_self (f : Member n) (m : Bytes) (a : ℕ) : f.set m a (f.get m a) = m :=
  m.store_load_self _ _

theorem get_set_of_lt {f : Member n} (h : v < 256 ^ f.width) :
    f.get (f.set m a v) a = v := by
  rw [get_set_self, Nat.mod_eq_of_lt h]

theorem get_set_of_ne {f g : Member n} (h : f.Apart g) (m : Bytes) (a v : ℕ) :
    f.get (g.set m a v) a = f.get m a := by
  apply Bytes.load_store_of_apart
  rcases h with h | h
  · exact .inl (by omega)
  · exact .inr (by omega)

/-- A field of a record that lies apart. -/
theorem get_set_of_apart {f : Member n} {g : Member k} (h : a + n ≤ b ∨ b + k ≤ a) :
    f.get (g.set m b v) a = f.get m a := by
  have hf := f.fits
  have hg := g.fits
  apply Bytes.load_store_of_apart
  omega

/-- Only the bytes of the field matter. -/
theorem get_congr {f : Member n}
    (h : ∀ x, a + f.off ≤ x → x < a + f.off + f.width → m'.byte x = m.byte x) :
    f.get m' a = f.get m a := by
  apply Bytes.load_congr
  intro i hi
  exact h _ (Nat.le_add_right _ i) (Nat.add_lt_add_left hi _)

/-- Only the bytes of the field change. -/
theorem set_of_outside {f : Member n} {x : ℕ} (h : x < a + f.off ∨ a + f.off + f.width ≤ x) :
    (f.set m a v).byte x = m.byte x :=
  Bytes.store_of_outside h

/-- Only the bytes of the record change. -/
theorem set_of_apart {f : Member n} {x : ℕ} (h : x < a ∨ a + n ≤ x) :
    (f.set m a v).byte x = m.byte x := by
  have hf := f.fits
  apply set_of_outside
  omega

end Member
