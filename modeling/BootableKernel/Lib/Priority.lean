import Mathlib.Data.Finset.Max

/-!
# Lines with a fixed priority

Requests arrive on lines, and the smaller line has the higher priority. A line is signalled
if it is requested, not masked, and comes before every line in service; when it is accepted
it is in service until the end of its service is announced. The announcement does not name
a line: it ends the service of the first one. As long as at most one line is in service
that is the right one.
-/

namespace Priority

variable {ι : Type*} [LinearOrder ι]

/-- The lines with a request, and those in service. -/
structure Lines (ι : Type*) where
  requested : Finset ι
  inService : Finset ι

namespace Lines

/-- The requests that nothing keeps back. -/
def eligible (c : Lines ι) (masked : Finset ι) : Finset ι :=
  (c.requested \ masked).filter fun i => ∀ j ∈ c.inService, i < j

/-- The line that is signalled. -/
def signal (c : Lines ι) (masked : Finset ι) : Option ι := (c.eligible masked).min

/-- A request on the line `i`. -/
def request (c : Lines ι) (i : ι) : Lines ι := { c with requested := insert i c.requested }

/-- The request is taken back. -/
def withdraw (c : Lines ι) (i : ι) : Lines ι := { c with requested := c.requested.erase i }

/-- The request on the line `i` goes into service. -/
def accept (c : Lines ι) (i : ι) : Lines ι :=
  { requested := c.requested.erase i, inService := insert i c.inService }

/-- The end of a service. -/
def finish (c : Lines ι) : Lines ι :=
  { c with inService := c.inService.filter fun i => ∃ j ∈ c.inService, j < i }

variable {c : Lines ι} {masked : Finset ι} {i : ι}

/-- With nothing in service only the mask keeps a request back. -/
theorem eligible_eq (h : c.inService = ∅) : c.eligible masked = c.requested \ masked := by
  simp [eligible, h]

/-- What a signal says: there is no request before it. -/
theorem signal_eq_some_iff (h : c.inService = ∅) :
    c.signal masked = some i ↔
      (i ∈ c.requested ∧ i ∉ masked) ∧ ∀ j ∈ c.requested, j ∉ masked → i ≤ j := by
  have hmin : c.signal masked = some i ↔ (c.requested \ masked).min = (i : WithTop ι) := by
    rw [signal, eligible_eq h]
    rfl
  rw [hmin, ← Finset.mem_sdiff]
  constructor
  · intro hi
    refine ⟨Finset.mem_of_min hi, fun j hj hmask => ?_⟩
    exact Finset.min_le_of_eq (Finset.mem_sdiff.mpr ⟨hj, hmask⟩) hi
  · rintro ⟨hi, hle⟩
    refine le_antisymm (Finset.min_le hi) (Finset.le_min fun j hj => ?_)
    rw [Finset.mem_sdiff] at hj
    exact WithTop.coe_le_coe.mpr (hle j hj.1 hj.2)

theorem signal_eq_none_iff (h : c.inService = ∅) :
    c.signal masked = none ↔ c.requested ⊆ masked := by
  rw [signal, eligible_eq h, ← Finset.sdiff_eq_empty_iff_subset]
  exact Finset.min_eq_top

theorem accept_inService (h : c.inService = ∅) : (c.accept i).inService = {i} := by
  simp [accept, h]

/-- The end of the only service. -/
theorem finish_inService (h : c.inService ⊆ {i}) : c.finish.inService = ∅ := by
  rcases Finset.subset_singleton_iff.mp h with h | h
  · simp [finish, h]
  · simp [finish, h]

end Lines

end Priority
