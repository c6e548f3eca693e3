import Mathlib.Algebra.Order.Ring.Nat
import Mathlib.Algebra.Order.Ring.Int
import Mathlib.Logic.Function.Iterate

/-!
# A point between two walls

A point starts at zero, moves by one and turns when it has reached `n` or zero. After `t`
moves it is at `position n t`, which runs from zero to `n` and back in `2 * n` moves.
-/

namespace Reflection

/-- One move. The pair is the place and the direction. -/
def step (n : ℕ) (s : ℤ × ℤ) : ℤ × ℤ :=
  (s.1 + s.2, if n ≤ s.1 + s.2 ∨ s.1 + s.2 ≤ 0 then -s.2 else s.2)

/-- The place after `t` moves. -/
def position (n t : ℕ) : ℕ := min (t % (2 * n)) (2 * n - t % (2 * n))

/-- The direction of the next one. -/
def direction (n t : ℕ) : ℤ := if t % (2 * n) < n then 1 else -1

theorem succ_mod {m : ℕ} (hm : 0 < m) (t : ℕ) :
    (t + 1) % m = if t % m + 1 = m then 0 else t % m + 1 := by
  have hlt := Nat.mod_lt t hm
  rw [← Nat.mod_add_mod]
  split
  · rename_i heq
    rw [heq, Nat.mod_self]
  · exact Nat.mod_eq_of_lt (by omega)

theorem step_position {n : ℕ} (hn : 0 < n) (t : ℕ) :
    step n ((position n t : ℤ), direction n t) =
      ((position n (t + 1) : ℤ), direction n (t + 1)) := by
  obtain ⟨r, hr⟩ : ∃ r, t % (2 * n) = r := ⟨_, rfl⟩
  have hlt : r < 2 * n := hr ▸ Nat.mod_lt t (by omega)
  have hsucc := succ_mod (show 0 < 2 * n by omega) t
  rw [hr] at hsucc
  simp only [step, position, direction, hr, hsucc, Prod.mk.injEq]
  constructor
  · split <;> split <;> omega
  · split <;> split <;> split <;> omega

/-- The point after `t` moves. -/
theorem step_iterate {n : ℕ} (hn : 0 < n) (t : ℕ) :
    (step n)^[t] (0, 1) = ((position n t : ℤ), direction n t) := by
  induction t with
  | zero => simp [position, direction, hn]
  | succ t ih => rw [Function.iterate_succ_apply', ih, step_position hn]

theorem position_le (n t : ℕ) : position n t ≤ n := by
  rw [position]
  omega

end Reflection
