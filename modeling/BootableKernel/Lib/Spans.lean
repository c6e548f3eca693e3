import Mathlib.Data.List.Perm.Basic
import Mathlib.Tactic.Linarith

/-!
# Exact covers by evenly spaced spans

A span is a start and a number of points that lie a fixed stride `w` apart. A list
of spans *tiles* a span `R` when every point of `R` belongs to exactly one span of
the list, counted with multiplicity, and no other point belongs to any. The order of
the list plays no part, and neither do empty spans, so splitting a span in two and
joining two adjacent ones are the only moves an allocator needs.

## Main definitions

* `Span.covers` — membership of a point in a span.
* `Tiles` — every point of a region is covered exactly once.
* `Tiles.apart` — members of a tiling do not overlap as intervals.
-/

/-- `size` points from `start` on; the stride is a parameter of every notion below. -/
structure Span where
  start : ℕ
  size : ℕ
  deriving DecidableEq, Repr

namespace Span

/-- The first address past the span. -/
def stop (w : ℕ) (r : Span) : ℕ := r.start + r.size * w

/-- Whether `a` is one of the points of the span. -/
def covers (w a : ℕ) (r : Span) : Bool :=
  decide (r.start ≤ a) && decide ((a - r.start) % w = 0) && decide ((a - r.start) / w < r.size)

variable {w : ℕ}

theorem covers_iff (hw : 0 < w) {a : ℕ} {r : Span} :
    r.covers w a = true ↔ ∃ j < r.size, a = r.start + j * w := by
  simp only [covers, Bool.and_eq_true, decide_eq_true_eq]
  constructor
  · rintro ⟨⟨hs, hm⟩, hd⟩
    refine ⟨(a - r.start) / w, hd, ?_⟩
    have := Nat.div_add_mod (a - r.start) w
    rw [hm, Nat.mul_comm] at this
    omega
  · rintro ⟨j, hj, rfl⟩
    have hsub : r.start + j * w - r.start = j * w := by omega
    refine ⟨⟨by omega, ?_⟩, ?_⟩
    · rw [hsub, Nat.mul_mod_left]
    · rw [hsub, Nat.mul_div_cancel j hw]
      exact hj

theorem covers_start (hw : 0 < w) {r : Span} (hr : 0 < r.size) :
    r.covers w r.start = true := (covers_iff hw).mpr ⟨0, hr, by simp⟩

theorem covers_bounds (hw : 0 < w) {a : ℕ} {r : Span} (h : r.covers w a = true) :
    r.start ≤ a ∧ a + w ≤ r.stop w := by
  obtain ⟨j, hj, rfl⟩ := (covers_iff hw).mp h
  refine ⟨by omega, ?_⟩
  have hmul : (j + 1) * w ≤ r.size * w := Nat.mul_le_mul_right w hj
  rw [Nat.add_mul, Nat.one_mul] at hmul
  simp only [stop]
  omega

@[simp] theorem covers_empty (a s : ℕ) : (⟨s, 0⟩ : Span).covers w a = false := by
  simp [covers]

/-- The points of a span are those of its first `n` and those of the rest. -/
theorem covers_split (hw : 0 < w) (a s n m : ℕ) :
    (⟨s, n + m⟩ : Span).covers w a =
      ((⟨s, n⟩ : Span).covers w a || (⟨s + n * w, m⟩ : Span).covers w a) := by
  rw [Bool.eq_iff_iff]
  simp only [Bool.or_eq_true, covers_iff hw]
  constructor
  · rintro ⟨j, hj, rfl⟩
    by_cases h : j < n
    · exact .inl ⟨j, h, rfl⟩
    · refine .inr ⟨j - n, by omega, ?_⟩
      rw [Nat.sub_mul]
      have : n * w ≤ j * w := Nat.mul_le_mul_right w (by omega)
      omega
  · rintro (⟨j, hj, rfl⟩ | ⟨j, hj, rfl⟩)
    · exact ⟨j, by omega, rfl⟩
    · exact ⟨n + j, by omega, by rw [Nat.add_mul]; omega⟩

/-- The two parts of a split span have no point in common. -/
theorem not_covers_both (hw : 0 < w) {a s n m : ℕ}
    (h : (⟨s, n⟩ : Span).covers w a = true) : (⟨s + n * w, m⟩ : Span).covers w a = false := by
  by_contra hc
  have h1 := (covers_bounds hw h).2
  have h2 := (covers_bounds hw (by simpa using hc)).1
  simp only [stop] at h1 h2
  omega

end Span

/-- Every point of `R` is covered by exactly one span of `l`, and no other point is. -/
def Tiles (w : ℕ) (l : List Span) (R : Span) : Prop :=
  ∀ a, l.countP (Span.covers w a) = if R.covers w a then 1 else 0

namespace Tiles

variable {w : ℕ} {l l' : List Span} {R r r' : Span}

theorem perm (h : Tiles w l R) (hp : l.Perm l') : Tiles w l' R :=
  fun a => (hp.countP_eq _).symm.trans (h a)

/-- A region tiles itself. -/
theorem self (w : ℕ) (R : Span) : Tiles w [R] R := by
  intro a
  rw [List.countP_cons, List.countP_nil, Nat.zero_add]

/-- Whether a list tiles a region depends on how often it covers each point. -/
theorem congr (h : ∀ a, l'.countP (Span.covers w a) = l.countP (Span.covers w a)) :
    Tiles w l' R ↔ Tiles w l R := forall_congr' fun a => by rw [h a]

/-- A span covers each point as often as its two parts do together. -/
theorem countP_split (hw : 0 < w) (a s n m : ℕ) :
    (⟨s, n + m⟩ :: l : List Span).countP (Span.covers w a) =
      (⟨s, n⟩ :: ⟨s + n * w, m⟩ :: l : List Span).countP (Span.covers w a) := by
  simp only [List.countP_cons, Span.covers_split hw]
  cases h : (⟨s, n⟩ : Span).covers w a
  · simp
  · simp [Span.not_covers_both hw h]

/-- Every covered point belongs to the region. -/
theorem covers_of_mem (h : Tiles w l R) (hr : r ∈ l) {a : ℕ} (ha : r.covers w a = true) :
    R.covers w a = true := by
  have hpos : 0 < l.countP (Span.covers w a) := List.countP_pos_iff.mpr ⟨r, hr, ha⟩
  rw [h a] at hpos
  by_contra hc
  simp [hc] at hpos

/-- Two members of a tiling have no point in common. -/
theorem disjoint (h : Tiles w (r :: r' :: l) R) {a : ℕ} (ha : r.covers w a = true) :
    r'.covers w a = false := by
  have hle : (r :: r' :: l).countP (Span.covers w a) ≤ 1 := by
    rw [h a]
    split <;> omega
  by_contra hc
  rw [Bool.not_eq_false] at hc
  simp only [List.countP_cons, ha, hc, if_true] at hle
  omega

/-- Two non-empty members of a tiling do not overlap as intervals. -/
theorem apart (hw : 0 < w) (h : Tiles w (r :: r' :: l) R) (hr : 0 < r.size) (hr' : 0 < r'.size) :
    r.stop w ≤ r'.start ∨ r'.stop w ≤ r.start := by
  -- Both starts are points of the region, hence a multiple of the stride apart.
  have key : ∀ {x y : Span} {k : List Span}, Tiles w (x :: y :: k) R → 0 < x.size → 0 < y.size →
      x.start ≤ y.start → x.stop w ≤ y.start := by
    intro x y k hk hx hy hle
    by_contra hlt
    obtain ⟨i, -, hi⟩ := (Span.covers_iff hw).mp
      (hk.covers_of_mem (by simp) (Span.covers_start hw hx))
    obtain ⟨j, -, hj⟩ := (Span.covers_iff hw).mp
      (hk.covers_of_mem (r := y) (by simp) (Span.covers_start hw hy))
    have hij : i ≤ j := by
      by_contra hc
      have := Nat.mul_lt_mul_of_pos_right (show j < i by omega) hw
      omega
    have hsub : (j - i) * w = y.start - x.start := by
      rw [Nat.sub_mul]
      omega
    have hlt' : j - i < x.size := by
      by_contra hc
      have := Nat.mul_le_mul_right w (show x.size ≤ j - i by omega)
      simp only [Span.stop] at hlt
      omega
    have hcov : x.covers w y.start = true :=
      (Span.covers_iff hw).mpr ⟨j - i, hlt', by omega⟩
    have hnot := hk.disjoint hcov
    rw [Span.covers_start hw hy] at hnot
    exact absurd hnot (by simp)
  rcases Nat.le_total r.start r'.start with hle | hle
  · exact .inl (key h hr hr' hle)
  · exact .inr (key (h.perm (List.Perm.swap ..)) hr' hr hle)

/-- Neither do one member of the first half of a tiling and one of the second. -/
theorem apart_of_mem_append (hw : 0 < w) (h : Tiles w (l ++ l') R) (hr : r ∈ l) (hr' : r' ∈ l')
    (hpos : 0 < r.size) (hpos' : 0 < r'.size) :
    r'.stop w ≤ r.start ∨ r.stop w ≤ r'.start := by
  have hperm : (l ++ l').Perm (r' :: r :: (l.erase r ++ l'.erase r')) :=
    ((List.perm_cons_erase hr).append (List.perm_cons_erase hr')).trans List.perm_middle
  exact (h.perm hperm).apart hw hpos' hpos

end Tiles
