import Mathlib.Algebra.BigOperators.Group.List.Basic
import Mathlib.Algebra.Order.Ring.Nat

/-!
# Cells in a region, in order

`Packed lo cs hi` says that the cells `cs` lie one after the other between `lo` and `hi`,
with gaps or without. A cell is anything with a start and a length. A request for `n`
bytes is served from the first gap that holds it, `firstGap`; one that finds no gap may
still be smaller than the space that is left in total, but never the other way round.
-/

namespace Arena

variable {α : Type*} (start len : α → ℕ)

/-- The cells lie in order between `lo` and `hi`. -/
def Packed : ℕ → List α → ℕ → Prop
  | lo, [], hi => lo ≤ hi
  | lo, c :: cs, hi => lo ≤ start c ∧ Packed (start c + len c) cs hi

/-- Where the last cell ends, or `lo` if there is none. -/
def reach : ℕ → List α → ℕ
  | lo, [] => lo
  | _, c :: cs => reach (start c + len c) cs

/-- Where the first cell starts, or `hi` if there is none. -/
def limit (hi : ℕ) : List α → ℕ
  | [] => hi
  | c :: _ => start c

/-- The place of the first gap of `n` bytes: the cells before it and those behind it. -/
def firstGap (n : ℕ) : ℕ → List α → ℕ → Option (List α × List α)
  | lo, [], hi => if lo + n ≤ hi then some ([], []) else none
  | lo, c :: cs, hi =>
      if lo + n ≤ start c then some ([], c :: cs)
      else (firstGap n (start c + len c) cs hi).map fun x => (c :: x.1, x.2)

/-- The number of bytes in the cells. -/
def used (cs : List α) : ℕ := (cs.map len).sum

variable {start len} {lo hi n : ℕ} {c : α} {cs l r : List α}

@[simp] theorem used_nil : used len ([] : List α) = 0 := rfl

@[simp] theorem used_cons (c : α) (cs : List α) : used len (c :: cs) = len c + used len cs := by
  simp [used]

@[simp] theorem used_append (l r : List α) : used len (l ++ r) = used len l + used len r := by
  simp [used]

theorem reach_concat (lo : ℕ) (l : List α) (c : α) :
    reach start len lo (l ++ [c]) = start c + len c := by
  induction l generalizing lo with
  | nil => rfl
  | cons d l ih => exact ih _

theorem Packed.le (h : Packed start len lo cs hi) : lo ≤ hi := by
  induction cs generalizing lo with
  | nil => exact h
  | cons c cs ih =>
      have hrest := ih h.2
      have hc := h.1
      omega

/-- Cells in order, in two parts. -/
theorem packed_append :
    Packed start len lo (l ++ r) hi ↔
      Packed start len lo l (reach start len lo l) ∧
        Packed start len (reach start len lo l) r hi := by
  induction l generalizing lo with
  | nil => simp [Packed, reach]
  | cons c l ih => simp only [List.cons_append, Packed, reach, ih, and_assoc]

/-- The region of a packed list may start later, up to the first cell. -/
theorem Packed.raise {lo' : ℕ} (h : Packed start len lo cs hi) (hle : lo' ≤ limit start hi cs) :
    Packed start len lo' cs hi := by
  cases cs with
  | nil => exact hle
  | cons c cs => exact ⟨hle, h.2⟩

theorem Packed.lower {lo' : ℕ} (h : Packed start len lo cs hi) (hle : lo' ≤ lo) :
    Packed start len lo' cs hi := by
  cases cs with
  | nil => exact hle.trans h
  | cons c cs => exact ⟨hle.trans h.1, h.2⟩

/-- **A cell put into a gap.** -/
theorem Packed.insert (h : Packed start len lo (l ++ r) hi)
    (hstart : start c = reach start len lo l)
    (hgap : reach start len lo l + len c ≤ limit start hi r) :
    Packed start len lo (l ++ c :: r) hi := by
  obtain ⟨h₁, h₂⟩ := packed_append.mp h
  refine packed_append.mpr ⟨h₁, hstart.ge, h₂.raise ?_⟩
  rwa [hstart]

/-- Fewer cells. -/
theorem Packed.sublist {cs' : List α} (h : Packed start len lo cs hi) (hs : cs'.Sublist cs) :
    Packed start len lo cs' hi := by
  induction hs generalizing lo with
  | slnil => exact h
  | cons c _ ih => exact (ih h.2).lower (by have := h.1; omega)
  | cons_cons c _ ih => exact ⟨h.1, ih h.2⟩

/-- Every cell lies in the region. -/
theorem Packed.bounds (h : Packed start len lo cs hi) (hc : c ∈ cs) :
    lo ≤ start c ∧ start c + len c ≤ hi := by
  induction cs generalizing lo with
  | nil => cases hc
  | cons d cs ih =>
      rcases List.mem_cons.mp hc with rfl | hc
      · exact ⟨h.1, h.2.le⟩
      · have hd := h.1
        have hrest := ih h.2 hc
        omega

/-- Cells do not overlap. -/
theorem Packed.pairwise (h : Packed start len lo cs hi) :
    cs.Pairwise fun c d => start c + len c ≤ start d := by
  induction cs generalizing lo with
  | nil => exact .nil
  | cons c cs ih => exact .cons (fun d hd => (h.2.bounds hd).1) (ih h.2)

/-- Two cells are the same, or they lie apart. -/
theorem Packed.apart {d : α} (h : Packed start len lo cs hi) (hc : c ∈ cs) (hd : d ∈ cs) :
    c = d ∨ start c + len c ≤ start d ∨ start d + len d ≤ start c := by
  induction cs generalizing lo with
  | nil => cases hc
  | cons e cs ih =>
      rcases List.mem_cons.mp hc with rfl | hc' <;> rcases List.mem_cons.mp hd with rfl | hd'
      · exact .inl rfl
      · exact .inr (.inl (h.2.bounds hd').1)
      · exact .inr (.inr (h.2.bounds hc').1)
      · exact ih h.2 hc' hd'

/-- The cells before and behind a cell. -/
theorem Packed.around (h : Packed start len lo (l ++ c :: r) hi) :
    (∀ d ∈ l, start d + len d ≤ start c) ∧ ∀ d ∈ r, start c + len c ≤ start d := by
  have hp := h.pairwise
  rw [List.pairwise_append, List.pairwise_cons] at hp
  exact ⟨fun d hd => hp.2.2 d hd c List.mem_cons_self, hp.2.1.1⟩

/-- The cells take no more than the region. -/
theorem Packed.used_le (h : Packed start len lo cs hi) : lo + used len cs ≤ hi := by
  induction cs generalizing lo with
  | nil => exact h
  | cons c cs ih =>
      have hrest := ih h.2
      have hc := h.1
      rw [used_cons]
      omega

/-! ## The first gap -/

/-- What the search returns is a gap. -/
theorem firstGap_spec (h : firstGap start len n lo cs hi = some (l, r)) :
    cs = l ++ r ∧ reach start len lo l + n ≤ limit start hi r := by
  induction cs generalizing lo l r with
  | nil =>
      rw [firstGap] at h
      split at h
      · rename_i hle
        cases h
        exact ⟨rfl, hle⟩
      · cases h
  | cons c cs ih =>
      rw [firstGap] at h
      split at h
      · rename_i hle
        cases h
        exact ⟨rfl, hle⟩
      · rw [Option.map_eq_some_iff] at h
        obtain ⟨⟨l', r'⟩, hfind, heq⟩ := h
        cases heq
        obtain ⟨rfl, hgap⟩ := ih hfind
        exact ⟨rfl, hgap⟩

/-- The search succeeds if there is a free range of `n` bytes. -/
theorem firstGap_ne_none {x : ℕ} (hlo : lo ≤ x) (hhi : x + n ≤ hi)
    (hfree : ∀ c ∈ cs, start c + len c ≤ x ∨ x + n ≤ start c) :
    firstGap start len n lo cs hi ≠ none := by
  induction cs generalizing lo with
  | nil =>
      rw [firstGap, if_pos (by omega)]
      exact Option.some_ne_none _
  | cons c cs ih =>
      rw [List.forall_mem_cons] at hfree
      rw [firstGap]
      split
      · exact Option.some_ne_none _
      · rename_i hgap
        have hc : start c + len c ≤ x := hfree.1.resolve_right (by omega)
        rw [ne_eq, Option.map_eq_none_iff]
        exact ih hc hfree.2

/-- A gap is part of the space that is left. -/
theorem Packed.used_add_le (h : Packed start len lo (l ++ r) hi)
    (hgap : reach start len lo l + n ≤ limit start hi r) :
    lo + used len (l ++ r) + n ≤ hi := by
  obtain ⟨h₁, h₂⟩ := packed_append.mp h
  have hl := h₁.used_le
  have hr := (h₂.raise hgap).used_le
  rw [used_append]
  omega

end Arena
