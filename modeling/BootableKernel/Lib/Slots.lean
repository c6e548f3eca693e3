import Mathlib.Data.List.FinRange

/-!
# Slot tables

A table of `n` slots, each empty or taken. A value goes into the first empty slot and a
slot is never emptied, so the table is a list that grows at its end until it has length
`n`. `Slots.Holds` says which list.
-/

/-- A table with `n` slots. -/
abbrev Slots (α : Type*) (n : ℕ) := Fin n → Option α

namespace Slots

variable {α : Type*} {n : ℕ} {t : Slots α n} {l : List α}

/-- All slots empty. -/
def empty : Slots α n := fun _ => none

/-- The first empty slot. -/
def firstFree (t : Slots α n) : Option (Fin n) :=
  (List.finRange n).find? fun i => (t i).isNone

/-- Put a value into the first empty slot, if there is one. -/
def insert (t : Slots α n) (a : α) : Option (Slots α n) :=
  (firstFree t).map fun i => Function.update t i (some a)

/-- The values of the slots in order, empty slots skipped. -/
def values (t : Slots α n) : List α := (List.finRange n).filterMap t

/-- The table holds `l`, from its first slot on and without a gap. -/
structure Holds (t : Slots α n) (l : List α) : Prop where
  length_le : l.length ≤ n
  slot (i : Fin n) : t i = l[i.val]?

theorem holds_empty : Holds (empty : Slots α n) [] := ⟨Nat.zero_le n, fun _ => rfl⟩

/-- In a full table no slot is free. -/
theorem Holds.firstFree_eq_none (h : Holds t l) (hl : l.length = n) : firstFree t = none := by
  apply List.find?_eq_none.mpr
  intro i _
  have hi : i.val < l.length := hl ▸ i.isLt
  simp [h.slot i, List.getElem?_eq_getElem hi]

/-- Otherwise the first free slot is the one after the list. -/
theorem Holds.firstFree_eq_some (h : Holds t l) (hl : l.length < n) :
    firstFree t = some ⟨l.length, hl⟩ := by
  apply List.find?_eq_some_iff_getElem.mpr
  refine ⟨by simp [h.slot], l.length, by simpa using hl, by simp, ?_⟩
  intro j hj
  simp [h.slot, hj]

/-- A value that is put into a table with room is added to its list. -/
theorem Holds.insert (h : Holds t l) (hl : l.length < n) (a : α) :
    ∃ t', Slots.insert t a = some t' ∧ Holds t' (l ++ [a]) := by
  refine ⟨Function.update t ⟨l.length, hl⟩ (some a), ?_, ?_, ?_⟩
  · rw [Slots.insert, h.firstFree_eq_some hl, Option.map_some]
  · rw [List.length_append]
    exact hl
  · intro i
    by_cases hi : i = ⟨l.length, hl⟩
    · simp [hi]
    · have hne : i.val ≠ l.length := fun heq => hi (Fin.ext heq)
      rw [Function.update_of_ne hi, h.slot i]
      grind

/-- A full table takes no value. -/
theorem Holds.insert_full (h : Holds t l) (hl : l.length = n) (a : α) :
    Slots.insert t a = none := by
  rw [Slots.insert, h.firstFree_eq_none hl, Option.map_none]

theorem filterMap_range_getElem? (l : List α) (k : ℕ) :
    (List.range k).filterMap (fun i => l[i]?) = l.take k := by
  induction k with
  | zero => simp
  | succ k ih =>
      rw [List.range_succ, List.filterMap_append, ih, List.take_add_one]
      cases hk : l[k]? <;> simp [hk]

/-- The values of a table are its list. -/
theorem Holds.values_eq (h : Holds t l) : values t = l := by
  have hslots : t = (fun i => l[i]?) ∘ Fin.val := funext h.slot
  rw [values, hslots, ← List.filterMap_map, List.map_coe_finRange_eq_range,
    filterMap_range_getElem?, List.take_of_length_le h.length_le]

end Slots
